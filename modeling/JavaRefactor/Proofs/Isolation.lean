import JavaRefactor.Proofs.Frames
import JavaRefactor.Proofs.SameOutside

/-! # Errors are isolated

What lies below an error does not show in the resolution. Each step of the walk commutes with
the renumbering that leads from one tree to another that agrees with it outside errors, so the
two resolutions differ in the numbers of nodes only.
-/

namespace JavaRefactor

variable {f : NodeId → NodeId} {t t' : Tree} {i k k' : Nat} {stack : List ScopeId}

def Finding.renumber (f : NodeId → NodeId) : Finding → Finding
  | duplicate name node span symbol first => duplicate name (f node) span symbol first
  | unresolved use => unresolved { use with node := f use.node }

def Resolution.renumber (f : NodeId → NodeId) (r : Resolution) : Resolution where
  scopes := r.scopes.map fun s => { s with node := f s.node }
  nested := r.nested
  symbols := r.symbols.map fun s => { s with node := f s.node }
  twins := r.twins
  bindings := r.bindings
  occurrences := r.occurrences.map fun o => { o with node := f o.node }
  findings := r.findings.map (·.renumber f)
  declared := r.declared.map fun p => (f p.1, p.2)

namespace Walk

variable {w : Walk} {d : Declaration}

def renumber (f : NodeId → NodeId) (w : Walk) : Walk where
  toResolution := w.toResolution.renumber f
  handled := w.handled.map f
  stray := w.stray

theorem getElem?_scopes_renumber (s : ScopeId) : (w.renumber f).scopes[s]? =
    w.scopes[s]?.map fun s => { s with node := f s.node } := by
  simp [renumber, Resolution.renumber]

theorem innermostType?_renumber :
    (w.renumber f).innermostType? stack = w.innermostType? stack := by
  simp only [innermostType?, getElem?_scopes_renumber, Option.map_map]
  rfl

theorem typeOwner?_renumber : (w.renumber f).typeOwner? stack = w.typeOwner? stack := by
  simp only [typeOwner?, innermostType?_renumber, getElem?_scopes_renumber, Option.bind_map]
  rfl

theorem find?_renumber (name : String) (target : Target) :
    (w.renumber f).find? stack name target = w.find? stack name target := by
  cases target with
  | lexical space => rfl
  | expression => rfl
  | member space =>
    simp only [find?, innermostType?_renumber]
    rfl

theorem addOccurrence_renumber (o : Occurrence) : (w.renumber f).addOccurrence
    { o with node := f o.node } = (w.addOccurrence o).renumber f := by
  simp [addOccurrence, renumber, Resolution.renumber]

section Steps

variable (h : Tree.SameOutside f t t') (ht : t.ErrorsApart) (ht' : t'.ErrorsApart)
include h ht

theorem declare_renumber (hr : t.IsReached d.name) (hn : t.IsName d.name) :
    (w.renumber f).declare t' stack (d.renumber f) =
      (w.declare t stack d).renumber f := by
  have htext : t'.text (f d.name) = t.text d.name := h.text_name ht hr hn
  have hspan : t'.span (f d.name) = t.span d.name := h.span d.name hr.isOuter
  have hbound : (w.renumber f).boundIn? = w.boundIn? := rfl
  have hsize : (w.renumber f).symbols.size = w.symbols.size := by
    simp [renumber, Resolution.renumber]
  unfold declare
  simp only [Declaration.renumber, htext, hspan, hbound, hsize, getElem?_scopes_renumber]
  cases w.scopes[current stack]? with
  | none => rfl
  | some home =>
    by_cases hk : d.kind = .method <;>
      cases w.boundIn? (current stack) d.kind.space (t.text d.name) <;>
      simp [hk, addOccurrence, renumber, Resolution.renumber, Finding.renumber]

theorem foldl_declare_renumber {l : List Declaration}
    (hl : ∀ d ∈ l, t.IsReached d.name ∧ t.IsName d.name) :
    (l.map (·.renumber f)).foldl (declare t' stack) (w.renumber f) =
      (l.foldl (declare t stack) w).renumber f := by
  induction l generalizing w with
  | nil => rfl
  | cons d l ih =>
    rw [List.forall_mem_cons] at hl
    rw [List.map_cons, List.foldl_cons, List.foldl_cons, declare_renumber h ht hl.1.1 hl.1.2,
      ih hl.2]

omit ht in
theorem isSettled_renumber (hw : w.OutsideErrors t) (hset : w.Accounted k) (hi : t.IsOuter i) :
    (w.renumber f).isSettled (f i) = w.isSettled i := by
  rw [Bool.eq_iff_iff, isSettled, isSettled, List.contains_iff_mem, List.contains_iff_mem,
    renumber, List.mem_map]
  constructor
  · rintro ⟨n, hn, he⟩
    obtain ⟨o, ho, -, rfl⟩ := (hset.handled n).mp hn
    exact h.inj (hw.occurrences o (Array.mem_def.mpr ho)).isOuter hi he ▸ hn
  · exact fun hn => ⟨i, hn, rfl⟩

omit ht in
theorem declaredBy?_renumber (hw : w.OutsideErrors t) (hi : t.IsOuter i) :
    (w.renumber f).declaredBy? (f i) = w.declaredBy? i := by
  have key (l : List (NodeId × SymbolId)) (hl : ∀ p ∈ l, t.IsReached p.1) :
      (l.map fun p => (f p.1, p.2)).lookup (f i) = l.lookup i := by
    induction l with
    | nil => rfl
    | cons p l ih =>
      rw [List.forall_mem_cons] at hl
      have heq : (f i == f p.1) = (i == p.1) := by
        rw [Bool.eq_iff_iff, beq_iff_eq, beq_iff_eq]
        exact h.eq_iff hi hl.1.isOuter
      rw [List.map_cons, List.lookup_cons, List.lookup_cons, heq, ih hl.2]
  exact key w.declared hw.declared

omit ht in
theorem bindUse_renumber (hi : t.IsOuter i) (htext : t'.text (f i) = t.text i) (target : Target) :
    (w.renumber f).bindUse t' stack (f i) target =
      (w.bindUse t stack i target).renumber f := by
  unfold bindUse
  simp only [htext, h.span i hi, find?_renumber]
  cases w.find? stack (t.text i) target with
  | none => simp [renumber, Resolution.renumber, Finding.renumber]
  | some symbol => exact addOccurrence_renumber ⟨symbol, i, t.span i, .reference, current stack⟩

include ht'

theorem visitIdentifier_renumber (hw : w.OutsideErrors t) (hset : w.Accounted k)
    (hi : t.IsReached i) :
    (w.renumber f).visitIdentifier t' stack (f i) =
      (w.visitIdentifier t stack i).renumber f := by
  unfold visitIdentifier
  rw [isSettled_renumber h hw hset hi.isOuter, h.role ht ht' hi]
  split
  · rfl
  · cases hr : t.role i with
    | ignored => rfl
    | declares d =>
      have hname := Tree.name_of_role hr
      exact declare_renumber h ht (hname ▸ hi) (hname ▸ Tree.isName_of_role (by simp [hr]))
    | uses target =>
      exact bindUse_renumber h hi.isOuter (h.text_name ht hi (Tree.isName_of_role (by simp [hr]))) _

theorem nameConstructor_renumber (hw : w.OutsideErrors t) (hset : w.Accounted k)
    (hi : t.IsReached i) (hk : (t.kind i).isConstructor) :
    (w.renumber f).nameConstructor t' stack (f i) =
      (w.nameConstructor t stack i).renumber f := by
  unfold nameConstructor
  rw [h.childByField? ht ht' hi]
  cases hc : t.childByField? i "name" with
  | none => rfl
  | some name =>
    have hr := ht.reached_of_childByField? hi hc
    have hn : t.IsName name := Or.inr (Or.inr ⟨i, by
      simp [Tree.isDeclaring, (NodeKind.isCallable_of_isConstructor hk).1], hc⟩)
    simp only [Option.map_some, isSettled_renumber h hw hset hr.isOuter, typeOwner?_renumber,
      h.text_name ht hr hn, h.span name hr.isOuter]
    split
    · rfl
    · cases w.typeOwner? stack with
      | none => rfl
      | some owner =>
        have hsym : (w.renumber f).symbols[owner]?.map (·.name) =
            w.symbols[owner]?.map (·.name) := by
          simp [renumber, Resolution.renumber, Function.comp_def]
        simp only [hsym]
        split
        · simp [addOccurrence, renumber, Resolution.renumber]
        · rfl

theorem announce_renumber (hw : w.OutsideErrors t) (hset : w.Accounted k) (hi : t.IsReached i) :
    (w.renumber f).announce t' stack (f i) = (w.announce t stack i).renumber f := by
  rw [announce_eq, announce_eq, h.kind i hi.isOuter, declaredBy?_renumber h hw hi.isOuter,
    h.ownDeclaration? ht ht' hi]
  split
  next hk => exact nameConstructor_renumber h ht ht' hw hset hi hk
  next =>
    split
    · rfl
    · cases hd : t.ownDeclaration? i with
      | none => rfl
      | some d =>
        have hmakes : t.Makes i d := .own hd
        exact declare_renumber h ht (ht.reached_of_makes hi hmakes).2 hmakes.isName

omit ht ht' in
theorem openScope_renumber (hw : w.OutsideErrors t) (hi : t.IsOuter i) (kind : ScopeKind) :
    (w.renumber f).openScope t' stack (f i) kind = (w.openScope t stack i kind).renumber f := by
  have hscope : (w.renumber f).newScope t' stack (f i) kind =
      { w.newScope t stack i kind with node := f i } := by
    simp only [newScope, h.kind i hi, h.span i hi, declaredBy?_renumber h hw hi]
  rw [openScope, hscope]
  simp [openScope, renumber, Resolution.renumber, newScope]

theorem enter_renumber (hw : w.OutsideErrors t) (hset : w.Accounted k) (hi : t.IsReached i) :
    (w.renumber f).enter t' stack (f i) =
      ((w.enter t stack i).1.renumber f, (w.enter t stack i).2) := by
  unfold enter
  rw [h.opens? ht ht' hi.isOuter]
  cases t.opens? i with
  | none => exact congrArg (·, stack) (visitIdentifier_renumber h ht ht' hw hset hi)
  | some kind =>
    have ha : (w.announce t stack i).OutsideErrors t := hw.announce ht hi
    have hsize : ((w.announce t stack i).renumber f).scopes.size =
        (w.announce t stack i).scopes.size := by
      simp [renumber, Resolution.renumber]
    have hl (d : Declaration) (hd : d ∈ t.hoisted i) : t.IsReached d.name ∧ t.IsName d.name :=
      have hmakes : t.Makes i d := .hoisted hd
      ⟨(ht.reached_of_makes hi hmakes).2, hmakes.isName⟩
    simp only [announce_renumber h ht ht' hw hset hi, hsize, h.hoisted ht ht' hi,
      openScope_renumber h ha hi.isOuter, foldl_declare_renumber h ht hl]

end Steps

theorem visit_of_not_reached (ht : t.IsProgram) (hk : k < t.size) (hr : ¬ t.IsReached k) :
    (upTo t (k + 1)).toWalk = (upTo t k).toWalk := by
  rw [upTo_succ]
  cases h : (upTo t k).reached? t k with
  | none => rw [visit_of_passed h]
  | some stack => exact absurd (isReached_of_reached? ht hk h) hr

theorem scopesAround_renumber (h : Tree.SameOutside f t t') (ht : t.ErrorsApart)
    (ht' : t'.ErrorsApart) (hi : t.IsOuter i) (hk : k ≤ t.size)
    (hw : (upTo t' k').toWalk = (upTo t k).renumber f) :
    (upTo t' k').scopesAround t' (f i) = (upTo t k).scopesAround t i := by
  rw [Resolution.scopesAround, Resolution.scopesAround, h.ancestors ht ht' hi, List.filterMap_map]
  refine List.filterMap_congr fun a ha => Option.ext fun c => ?_
  have hao := (hi.of_mem_ancestors ht.toInPreorder ha).isOuter
  have hout := (outsideErrors_upTo ht hk).scopes
  rw [Function.comp_apply, openedBy?_eq_some_iff, openedBy?_eq_some_iff, hw]
  simp only [getElem?_scopes_renumber, Option.map_eq_some_iff]
  constructor
  · rintro ⟨_, ⟨s, hs, rfl⟩, he⟩
    exact ⟨s, hs, h.inj (hout s (Array.mem_of_getElem? hs)).isOuter hao he⟩
  · rintro ⟨s, hs, rfl⟩
    exact ⟨_, ⟨s, hs, rfl⟩, rfl⟩

theorem visit_renumber (h : Tree.SameOutside f t t') (ht : t.ErrorsApart) (ht' : t'.ErrorsApart)
    (hi : t.IsReached i)
    (hw : (upTo t' (f i)).toWalk = (upTo t i).renumber f) :
    (upTo t' (f i + 1)).toWalk = (upTo t (i + 1)).renumber f := by
  have hi' := h.reached ht ht' hi
  have hle : i ≤ t.size := Nat.le_of_lt hi.1
  have hle' : f i ≤ t'.size := Nat.le_of_lt hi'.1
  have hr := reached?_eq_scopesAround ht.toIsProgram hi (Nat.le_refl i) hle
  have hr' := reached?_eq_scopesAround ht'.toIsProgram hi' (Nat.le_refl (f i)) hle'
  rw [scopesAround_renumber h ht ht' hi.isOuter hle hw] at hr'
  have hset := (framed_upTo ht.toIsProgram hle).toAccounted
  rw [upTo_succ_of_reached hr, upTo_succ_of_reached hr', hw,
    enter_renumber h ht ht' (outsideErrors_upTo ht hle) hset hi]

/-- The walks over the nodes before two places that correspond. -/
theorem upTo_renumber (h : Tree.SameOutside f t t') (ht : t.ErrorsApart) (ht' : t'.ErrorsApart)
    (hk : k ≤ t.size) (hk' : k' ≤ t'.size) (hcut : ∀ i : Nat, t.IsOuter i → (i < k ↔ f i < k')) :
    (upTo t' k').toWalk = (upTo t k).renumber f := by
  induction hn : k + k' using Nat.strongRecOn generalizing k k' with
  | ind n ih =>
    -- a last node that lies below an error is left out, in either tree
    by_cases hdrop : ∃ j, k = j + 1 ∧ ¬ t.IsOuter j
    · obtain ⟨j, rfl, hj⟩ := hdrop
      rw [visit_of_not_reached ht.toIsProgram hk fun hr => hj hr.isOuter]
      refine ih (j + k') (by omega) (by omega) hk' (fun i hi => ?_) rfl
      have hne : i ≠ j := fun he => hj (he ▸ hi)
      have := hcut i hi
      lia
    by_cases hdrop' : ∃ j, k' = j + 1 ∧ ¬ t'.IsOuter j
    · obtain ⟨j, rfl, hj⟩ := hdrop'
      rw [visit_of_not_reached ht'.toIsProgram hk' fun hr => hj hr.isOuter]
      refine ih (k + j) (by omega) hk (by omega) (fun i hi => ?_) rfl
      have hne : f i ≠ j := fun he => hj (he ▸ h.outer i hi)
      have := hcut i hi
      lia
    simp only [not_exists, not_and, not_not] at hdrop hdrop'
    cases k' with
    | zero =>
      cases k with
      | zero => simp [upTo_zero, renumber, Resolution.renumber]
      | succ j =>
        have := (hcut j (hdrop j rfl)).mp (Nat.lt_succ_self j)
        exact absurd this (Nat.not_lt_zero _)
    | succ j' =>
      -- the last nodes correspond, since no other node of `t` leads to the one of `t'`
      obtain ⟨x, hx, rfl⟩ := h.onto j' (hdrop' j' rfl)
      have hxk : x < k := (hcut x hx).mpr (Nat.lt_succ_self _)
      obtain ⟨j, rfl⟩ : ∃ j, k = j + 1 := ⟨k - 1, by omega⟩
      have hj := hdrop j rfl
      obtain rfl : x = j := by
        have h₁ := (hcut j hj).mp (Nat.lt_succ_self j)
        have h₂ := h.lt_iff hx hj
        lia
      have hw := ih (x + f x) (by lia) (by lia) (by lia)
        (fun i hi => (h.lt_iff hi hx).symm) rfl
      by_cases hr : t.IsReached x
      · exact visit_renumber h ht ht' hr hw
      · have hr' : ¬ t'.IsReached (f x) := fun hr' => hr ((h.reached_iff ht ht' hx).mp hr')
        rw [visit_of_not_reached ht.toIsProgram hk hr, visit_of_not_reached ht'.toIsProgram hk' hr',
          hw]

end Walk

/-- What is taken for granted of the parser about errors: the root is a whole program, no field
holds an error, and names are leaves. -/
structure Tree.IsParsed (t : Tree) : Prop where
  built : ∃ source raw, t = .ofRaw source raw
  program : t.kind root = .program
  errorField : ∀ i : Nat, t.isError i → t.field i = none
  leaf : ∀ i, t.IsName i → t.children i = []

theorem Tree.IsParsed.errorsApart (h : t.IsParsed) : t.ErrorsApart := by
  obtain ⟨source, raw, rfl⟩ := h.built
  exact ⟨⟨ofRaw_inPreorder source raw, h.program⟩, fun i => kind_of_isError source raw,
    h.errorField, h.leaf⟩

theorem Tree.isParsed_of_checked (built : ∃ source raw, t = .ofRaw source raw)
    (program : t.kind root = .program)
    (checked : ∀ i ∈ t.ids, (t.isError i → t.field i = none) ∧ (t.IsName i → t.children i = [])) :
    t.IsParsed := by
  refine ⟨built, program, fun i hi => ?_, fun i hi => ?_⟩
  · refine (checked i (List.mem_range.mpr (Nat.lt_of_not_le fun hs => ?_))).1 hi
    simp [isError, node_of_size_le hs, Node.absent] at hi
  · obtain ⟨source, raw, rfl⟩ := built
    have hlt := (ofRaw_inPreorder source raw).lt_size_of_isName hi
    exact (checked i (List.mem_range.mpr hlt)).2 hi

/-- Nothing in the resolution of a program comes from inside an error, and what lies inside the
errors has no influence on it: the resolution of any tree that agrees with the first one outside
errors is the same up to the numbers of nodes. -/
theorem resolve_isolates_errors (ht : t.IsParsed) :
    ∃ r, resolve t = .ok r ∧ r.OutsideErrors t ∧
      ∀ (t' : Tree) (f : NodeId → NodeId), t'.IsParsed → Tree.SameOutside f t t' →
        resolve t' = .ok (r.renumber f) := by
  have ha := ht.errorsApart
  refine ⟨_, resolve_eq_ok ha.toIsProgram, Walk.outsideErrors_upTo ha (Nat.le_refl _), ?_⟩
  intro t' f ht' h
  rw [resolve_eq_ok ht'.errorsApart.toIsProgram]
  have hsame := Walk.upTo_renumber h ha ht'.errorsApart (Nat.le_refl _) (Nat.le_refl _) ?_
  · exact congrArg (Except.ok ·.toResolution) hsame
  intro i hi
  exact iff_of_true hi.1 (h.outer i hi).1

namespace Sample

/-- A class with a constructor and a broken member, and a variable of the class behind it. -/
def broken (word : String) (inner : List RawTree.Row) : Tree :=
  .ofRaw ("class A \x7b A( int x) \x7b x = 1; \x7d " ++ word ++ " \x7d A a;")
    ((RawTree.ofRows? (
      [phrase 0 0 41 "program" none, phrase 1 0 36 "class_declaration" none, token 2 0 5 "class",
       phrase 2 6 7 "identifier" (some "name"), phrase 2 8 36 "class_body" (some "body"),
       token 3 8 9 "\x7b", phrase 3 10 30 "constructor_declaration" none,
       phrase 4 10 11 "identifier" (some "name"),
       phrase 4 11 19 "formal_parameters" (some "parameters"), token 5 11 12 "(",
       phrase 5 13 18 "formal_parameter" none, phrase 6 13 16 "integral_type" (some "type"),
       phrase 6 17 18 "identifier" (some "name"), token 5 18 19 ")",
       phrase 4 20 30 "constructor_body" (some "body"), token 5 20 21 "\x7b",
       phrase 5 22 28 "expression_statement" none, phrase 6 22 27 "assignment_expression" none,
       phrase 7 22 23 "identifier" (some "left"), token 7 24 25 "=",
       phrase 7 26 27 "decimal_integer_literal" (some "right"), token 6 27 28 ";",
       token 5 29 30 "\x7d", fault 3 31 34] ++ inner ++
      [token 3 35 36 "\x7d", phrase 1 37 41 "local_variable_declaration" none,
       phrase 2 37 38 "type_identifier" (some "type"),
       phrase 2 39 40 "variable_declarator" (some "declarator"),
       phrase 3 39 40 "identifier" (some "name"), token 2 40 41 ";"])).getD default)

def brokenMethod : Tree :=
  broken "B()" [phrase 4 31 32 "identifier" (some "name"),
    phrase 4 32 34 "formal_parameters" (some "parameters"), token 5 32 33 "(", token 5 33 34 ")"]

def brokenType : Tree := broken "int" [phrase 4 31 34 "integral_type" none, token 5 31 34 "int"]

/-- Behind the error two nodes less come before in the second tree. -/
def brokenShift (i : NodeId) : NodeId := if i ≤ 23 then i else i - 2

theorem brokenMethod_isParsed : brokenMethod.IsParsed := by
  refine Tree.isParsed_of_checked ?_ (by decide +kernel) (by decide +kernel)
  unfold brokenMethod broken
  exact ⟨_, _, rfl⟩

theorem brokenType_isParsed : brokenType.IsParsed := by
  refine Tree.isParsed_of_checked ?_ (by decide +kernel) (by decide +kernel)
  unfold brokenType broken
  exact ⟨_, _, rfl⟩

theorem sameOutside_broken : Tree.SameOutside brokenShift brokenMethod brokenType :=
  Tree.sameOutside_of_agreesAt (by decide +kernel) (by decide +kernel) (by decide +kernel)

end Sample

/-- The name in the broken method is no symbol, and without it the same is found. -/
theorem resolve_isolates_errors_sample :
    Sample.brokenMethod.IsParsed ∧ Sample.brokenType.IsParsed ∧
      Tree.SameOutside Sample.brokenShift Sample.brokenMethod Sample.brokenType ∧
      ∃ r, resolve Sample.brokenMethod = .ok r ∧ r.OutsideErrors Sample.brokenMethod ∧
        resolve Sample.brokenType = .ok (r.renumber Sample.brokenShift) ∧
        r.symbols.toList.map (·.name) = ["A", "x", "a"] := by
  obtain ⟨r, hr, hout, hsame⟩ := resolve_isolates_errors Sample.brokenMethod_isParsed
  refine ⟨Sample.brokenMethod_isParsed, Sample.brokenType_isParsed, Sample.sameOutside_broken, r,
    hr, hout, hsame _ _ Sample.brokenType_isParsed Sample.sameOutside_broken, ?_⟩
  have hnames : (resolve Sample.brokenMethod).toOption.map
      (fun r => r.symbols.toList.map (·.name)) = some ["A", "x", "a"] := by
    decide +kernel
  rw [hr] at hnames
  exact Option.some.inj hnames

end JavaRefactor
