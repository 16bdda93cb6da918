import JavaRefactor.Proofs.Nesting
import JavaRefactor.Proofs.RenameSafety

/-! # Constructors and methods

A member that is written as a constructor counts as one if it has the name of its type, and as a
method otherwise. Types and methods have namespaces of their own, so no check of a rename compares
their names. A constructor stays one, since its name is an occurrence of the type. A method becomes
one if the new name makes the two names meet.
-/

namespace JavaRefactor

namespace Resolution

def IsConstructorOf (r : Resolution) (t : Tree) (i m : NodeId) : Prop :=
  ∃ o ∈ r.occurrences, ∃ o' ∈ r.occurrences,
    o.kind = .declaration ∧ t.childByField? i "name" = some o.node ∧
    o'.kind = .constructor ∧ t.childByField? m "name" = some o'.node ∧ o'.symbol = o.symbol

/-- The name of the member `m` is recorded as a declaration, so as that of a method. -/
def IsMethod (r : Resolution) (t : Tree) (m : NodeId) : Prop :=
  ∃ o ∈ r.occurrences, o.kind = .declaration ∧ t.childByField? m "name" = some o.node

/-- A new name for a symbol makes a method meet its type: either the type gets the name of the
method, or the method gets the name of the type. -/
def Meets (r : Resolution) (t : Tree) (s : Symbol) (name : String) (i m : NodeId) : Prop :=
  (t.kind i).isTypeDeclaration ∧ ∃ o ∈ r.occurrences, ∃ o' ∈ r.occurrences,
    o.kind = .declaration ∧ t.childByField? i "name" = some o.node ∧
    o'.kind = .declaration ∧ t.childByField? m "name" = some o'.node ∧
    (o.symbol = s.id ∧ t.text o'.node = name ∨ o'.symbol = s.id ∧ t.text o.node = name)

end Resolution

namespace Walk

variable {t : Tree} {i k m : Nat} {stack : List ScopeId} {x y : NodeId} {o : Occurrence}

theorem exists_reached_of_constructor (ht : t.IsProgram) (hk : k ≤ t.size) :
    ∀ o ∈ (upTo t k).occurrences.toList, o.kind = .constructor →
      ∃ m < k, t.childByField? m "name" = some o.node ∧ ((upTo t m).reached? t m).isSome := by
  let P (k : Nat) (w : Walk) : Prop := ∀ o ∈ w.occurrences.toList, o.kind = .constructor →
    ∃ m < k, t.childByField? m "name" = some o.node ∧ ((upTo t m).reached? t m).isSome
  have hdeclare {k : Nat} {w w' : Walk} {stack : List ScopeId} {d : Declaration}
      (hd : Declared t stack w d w') (h : P k w) : P k w' := by
    obtain ⟨id, hid⟩ : ∃ id, w'.occurrences = w.occurrences.push (declaredAs t stack d id) := by
      cases hd <;> exact ⟨_, rfl⟩
    intro o ho hkind
    rw [hid, Array.toList_push, List.mem_append, List.mem_singleton] at ho
    rcases ho with ho | rfl
    · exact h o ho hkind
    · simp [declaredAs] at hkind
  refine upTo_induction (P := fun k v => P k v) ht (by simp [P]) ?_ hk
  rintro k v hks hframed rfl h
  have h : P (k + 1) (upTo t k) := fun o ho hkind => by
    obtain ⟨m, hm, hrest⟩ := h o ho hkind
    exact ⟨m, Nat.lt_succ_of_lt hm, hrest⟩
  cases hr : (upTo t k).reached? t k with
  | none =>
    rw [visit_of_passed hr]
    exact h
  | some stack =>
    refine visit_preserves (P := P (k + 1)) ht hks hframed (fun _ _ _ h => h)
      (fun _ _ _ _ h => h) (fun _ hd h => hdeclare hd h) (fun {w o} hrec h => ?_) h
    intro o' ho' hkind
    rcases mem_occurrences_recorded.mp ho' with ho' | rfl
    · exact h o' ho' hkind
    · cases hrec with
      | reference => simp at hkind
      | constructor _ child => exact ⟨k, Nat.lt_succ_self k, child, by simp [hr]⟩

variable (ht : t.IsProgram) (hk : (t.kind m).isConstructor)
  (hy : t.childByField? m "name" = some y) (hm : t.HoistsMember i m)
  (hg : t.Grammatical) (ho : (t.opens? i).isSome)
include ht hk hy hm hg ho

theorem isMethod_iff : (upTo t t.size).IsMethod t m ↔
    t.IsReached m ∧ t.typeName? i ≠ some (t.text y) := by
  have hle := Nat.le_refl t.size
  obtain ⟨p, hp⟩ := ht.parent_of_mem (hm.mem_ancestors ht.toInPreorder)
  have hms := ht.lt_size_of_parent hp
  have him : i < m := ht.lt_of_mem_ancestors (hm.mem_ancestors ht.toInPreorder)
  rw [← hoisted_constructor_iff ht.toInPreorder hk hy hm]
  constructor
  · rintro ⟨o, hmem, hdecl, hname⟩
    obtain rfl := Option.some.inj (hname.symm.trans hy)
    have hmem := Array.mem_toList_iff.mpr hmem
    obtain ⟨hd, ⟨stack, hr⟩, -⟩ := hoisted_of_declaration ht hle hk hy
      (hg.isHomeOf ht.toInPreorder hm ho) hmem hdecl rfl
    have hframe : (upTo t i).frame? t i = some ((upTo t i).scopes.size :: stack) := by
      simp [Trail.frame?, hr, ho]
    have hnot : t.kind m ≠ .error := by
      rintro he
      simp [he, NodeKind.isConstructor] at hk
    have hreach := hm.reached ht.toInPreorder hg hnot hframe
    exact ⟨isReached_of_reached? ht hms hreach, hd⟩
  · rintro ⟨hreach, hd⟩
    obtain ⟨stack, hr⟩ := Option.isSome_iff_exists.mp ((isSome_reached?_iff ht hms).mpr hreach)
    obtain ⟨outer, hr', -⟩ := frame?_of_opens ho
      ((hg.isHomeOf ht.toInPreorder hm ho).frame ht.toInPreorder hr)
    obtain ⟨o, hmem, hdecl, rfl⟩ :=
      exists_declaration_of_hoisted ht (by omega) hle hr' ho hd
    exact ⟨o, Array.mem_toList_iff.mp hmem, hdecl, hy⟩

theorem isConstructorOf_iff : (upTo t t.size).IsConstructorOf t i m ↔
    t.IsReached m ∧ t.typeName? i = some (t.text y) := by
  have hle := Nat.le_refl t.size
  obtain ⟨p, hp⟩ := ht.parent_of_mem (hm.mem_ancestors ht.toInPreorder)
  have hms := ht.lt_size_of_parent hp
  constructor
  · rintro ⟨o, hmem, o', hmem', hdecl, hx, hctor, hname, hsym⟩
    obtain rfl := Option.some.inj (hname.symm.trans hy)
    have hmem' := Array.mem_toList_iff.mpr hmem'
    obtain ⟨m', -, hchild, hreach⟩ := exists_reached_of_constructor ht hle o' hmem' hctor
    obtain rfl : m' = m := Option.some.inj
      ((ht.parent_of_childByField? hchild).symm.trans (ht.parent_of_childByField? hy))
    refine ⟨(isSome_reached?_iff ht hms).mp hreach, ?_⟩
    -- otherwise the name would be a declaration too
    by_contra hne
    have hmethod := (isMethod_iff ht hk hy hm hg ho).mpr
      ⟨(isSome_reached?_iff ht hms).mp hreach, hne⟩
    obtain ⟨o'', hmem'', hdecl', hname'⟩ := hmethod
    have := eq_of_node_eq ht hg hle (Array.mem_toList_iff.mpr hmem'') hmem'
      (Option.some.inj (hname'.symm.trans hname))
    simp [this, hctor] at hdecl'
  · rintro ⟨hreach, hsame⟩
    obtain ⟨stack, hr⟩ := Option.isSome_iff_exists.mp ((isSome_reached?_iff ht hms).mpr hreach)
    have hext := upTo_extends ht (show m + 1 ≤ t.size from hms) hle
    have hno : (⟨y, m, .method⟩ : Declaration) ∉ t.hoisted i := by
      rw [hoisted_constructor_iff ht.toInPreorder hk hy hm]
      exact not_not.mpr hsame
    obtain ⟨-, o, hmem, o', hmem', hdecl, hx, -, -, hctor, rfl, hsym⟩ :=
      (constructor_outcome ht hk hy (hg.isHomeOf ht.toInPreorder hm ho) hr).resolve_left hno
    exact ⟨o, Array.mem_toList_iff.mp (hext.occurrences.subset hmem), o',
      Array.mem_toList_iff.mp (hext.occurrences.subset hmem'), hdecl, hx, hctor, hy, hsym⟩

omit hk hy in
theorem exists_declaration_of_opener (hreach : t.IsReached m) (htype : (t.kind i).isTypeDeclaration)
    (hx : t.childByField? i "name" = some x) :
    ∃ o ∈ (upTo t t.size).occurrences.toList, o.kind = .declaration ∧ o.node = x := by
  obtain ⟨p, hp⟩ := ht.parent_of_mem (hm.mem_ancestors ht.toInPreorder)
  have hms := ht.lt_size_of_parent hp
  have him : i < m := ht.lt_of_mem_ancestors (hm.mem_ancestors ht.toInPreorder)
  obtain ⟨stack, hr⟩ := Option.isSome_iff_exists.mp ((isSome_reached?_iff ht hms).mpr hreach)
  obtain ⟨outer, hr', -⟩ := frame?_of_opens ho
    ((hg.isHomeOf ht.toInPreorder hm ho).frame ht.toInPreorder hr)
  exact exists_declaration_of_type ht (by omega) hr' htype hx

end Walk

namespace Tree

variable {t t' : Tree} {i m : Nat}

theorem typeName?_eq_some_iff {name : String} : t.typeName? i = some name ↔
    (t.kind i).isTypeDeclaration ∧ ∃ x, t.childByField? i "name" = some x ∧ t.text x = name := by
  unfold typeName?
  split
  next hk => simp [hk]
  next hk => simp [hk]

theorem SameShape.isReached_iff (h : SameShape t t') : t'.IsReached m ↔ t.IsReached m := by
  rw [IsReached, IsReached, h.size, h.ancestors, h.isError]

end Tree

namespace Renamed

open Walk

variable {t t' : Tree} {s : Symbol} {name : String} {i m : Nat}

/-- A member counts as a constructor after a rename if it did before, or if the new name makes
it meet its type. -/
theorem isConstructorOf_renamed_iff (h : Renamed t s name t') (ht : t.IsProgram)
    (hg : t.Grammatical) (hs : (upTo t t.size).symbols[s.id]? = some s)
    (hk : (t.kind m).isConstructor)
    (hm : t.HoistsMember i m) (ho : (t.opens? i).isSome) :
    (upTo t' t'.size).IsConstructorOf t' i m ↔
      (upTo t t.size).IsConstructorOf t i m ∨ (upTo t t.size).Meets t s name i m := by
  have hsound := sound_upTo ht (Nat.le_refl t.size)
  cases hy : t.childByField? m "name" with
  | none => simp [Resolution.IsConstructorOf, Resolution.Meets, h.childByField?, hy]
  | some y =>
    rw [isConstructorOf_iff (h.isProgram ht) (h.kind ▸ hk) (h.childByField? ▸ hy)
      (h.hoistsMember_iff.mpr hm) (h.grammatical hg) (h.opens? ▸ ho), h.isReached_iff,
      Tree.typeName?_eq_some_iff, h.kind, h.childByField?]
    constructor
    · rintro ⟨hreach, htype, x, hx, htext⟩
      by_cases hsame : t.typeName? i = some (t.text y)
      · exact Or.inl ((isConstructorOf_iff ht hk hy hm hg ho).mpr ⟨hreach, hsame⟩)
      -- the member was a method, and one of the two names has changed
      obtain ⟨o', hmem', hdecl', hy'⟩ := (isMethod_iff ht hk hy hm hg ho).mpr ⟨hreach, hsame⟩
      obtain ⟨o, hmem, hdecl, rfl⟩ := exists_declaration_of_opener ht hm hg ho hreach htype hx
      obtain rfl := Option.some.inj (hy.symm.trans hy')
      have hmem' := Array.mem_toList_iff.mpr hmem'
      have hne : t.text o.node ≠ t.text o'.node := fun he =>
        hsame (Tree.typeName?_eq_some_iff.mpr ⟨htype, o.node, hx, he⟩)
      rw [h.text_eq ht hg hmem, h.text_eq ht hg hmem'] at htext
      refine Or.inr ⟨htype, o, Array.mem_toList_iff.mp hmem, o', Array.mem_toList_iff.mp hmem',
        hdecl, hx, hdecl', hy, ?_⟩
      by_cases hid : o.symbol = s.id <;> by_cases hid' : o'.symbol = s.id <;>
        simp only [hid, hid', if_true, if_false] at htext
      · have hread := hsound.text_of_symbol hs hmem hid
        exact absurd (hread.trans (hsound.text_of_symbol hs hmem' hid').symm) hne
      · exact Or.inl ⟨hid, htext.symm⟩
      · exact Or.inr ⟨hid', htext⟩
      · exact absurd htext hne
    · rintro (hctor | ⟨htype, o, hmem, o', hmem', hdecl, hx, hdecl', hy', hmeet⟩)
      · obtain ⟨hreach, hsame⟩ := (isConstructorOf_iff ht hk hy hm hg ho).mp hctor
        obtain ⟨htype, x, hx, htext⟩ := Tree.typeName?_eq_some_iff.mp hsame
        obtain ⟨o, hmem, o', hmem', hdecl, hx', -, hy', hsym⟩ := hctor
        obtain rfl := Option.some.inj (hx.symm.trans hx')
        obtain rfl := Option.some.inj (hy.symm.trans hy')
        refine ⟨hreach, htype, o.node, hx, ?_⟩
        rw [h.text_eq ht hg (Array.mem_toList_iff.mpr hmem),
          h.text_eq ht hg (Array.mem_toList_iff.mpr hmem'), hsym, htext]
      · obtain ⟨hreach, -⟩ :=
          (isMethod_iff ht hk hy hm hg ho).mp ⟨o', hmem', hdecl', hy'⟩
        obtain rfl := Option.some.inj (hy.symm.trans hy')
        refine ⟨hreach, htype, o.node, hx, ?_⟩
        rw [h.text_eq ht hg (Array.mem_toList_iff.mpr hmem),
          h.text_eq ht hg (Array.mem_toList_iff.mpr hmem')]
        rcases hmeet with ⟨hid, htext⟩ | ⟨hid, htext⟩
        · simp [hid, htext]
        · simp [hid, htext]

theorem isMethod_renamed_iff (h : Renamed t s name t') (ht : t.IsProgram) (hg : t.Grammatical)
    (hs : (upTo t t.size).symbols[s.id]? = some s) (hk : (t.kind m).isConstructor)
    (hm : t.HoistsMember i m) (ho : (t.opens? i).isSome) :
    (upTo t' t'.size).IsMethod t' m ↔
      (upTo t t.size).IsMethod t m ∧ ¬ (upTo t t.size).Meets t s name i m := by
  cases hy : t.childByField? m "name" with
  | none => simp [Resolution.IsMethod, h.childByField?, hy]
  | some y =>
    have key {t₁ : Tree} (h₁ : t.SameShape t₁) : (upTo t₁ t₁.size).IsMethod t₁ m ↔
        t.IsReached m ∧ ¬ (upTo t₁ t₁.size).IsConstructorOf t₁ i m := by
      have ht₁ := h₁.isProgram ht
      have hg₁ := h₁.grammatical hg
      have hm₁ := h₁.hoistsMember_iff.mpr hm
      have hk₁ : (t₁.kind m).isConstructor := h₁.kind ▸ hk
      have hy₁ : t₁.childByField? m "name" = some y := h₁.childByField? ▸ hy
      have ho₁ : (t₁.opens? i).isSome := h₁.opens? ▸ ho
      rw [isMethod_iff ht₁ hk₁ hy₁ hm₁ hg₁ ho₁, isConstructorOf_iff ht₁ hk₁ hy₁ hm₁ hg₁ ho₁,
        h₁.isReached_iff]
      tauto
    rw [key h.toSameShape, key ⟨rfl, rfl, rfl, rfl, rfl, rfl, rfl⟩,
      h.isConstructorOf_renamed_iff ht hg hs hk hm ho]
    tauto

end Renamed

/-- A rename never makes a method of a constructor. It makes a constructor of a method exactly if
it gives the method the name of its type, or the type the name of the method. -/
theorem Resolution.planRename_constructors (t : Tree) (ht : t.IsProgram) (hg : t.Grammatical)
    (r : Resolution) (hr : resolve t = .ok r) (s : Symbol) (hs : s ∈ r.symbols) (name : String)
    (p : RenamePlan) (hp : r.planRename t s name = .ok p) :
    (∀ t', Renamed t s name t' → ∃ r', resolve t' = .ok r' ∧
      ∀ i m : NodeId, (t.kind m).isConstructor → t.HoistsMember i m → (t.opens? i).isSome →
        (r'.IsConstructorOf t' i m ↔ r.IsConstructorOf t i m ∨ r.Meets t s name i m) ∧
        (r'.IsMethod t' m ↔ r.IsMethod t m ∧ ¬ r.Meets t s name i m)) ∧
    (t.Readable → s.name ≠ "" → ∃ out, p.plan.apply t.source = .ok out ∧
      Renamed t s name (t.edited p.plan.edits out)) := by
  obtain ⟨rfl, hsym⟩ := of_resolve_eq_ok ht hr hs
  constructor
  · intro t' h
    refine ⟨_, resolve_eq_ok (h.isProgram ht), fun i m hk hm ho => ⟨?_, ?_⟩⟩
    · exact h.isConstructorOf_renamed_iff ht hg hsym hk hm ho
    · exact h.isMethod_renamed_iff ht hg hsym hk hm ho
  · exact fun hread hname => exists_renamed hread hsym hname hp

namespace Sample

def methodRows : List RawTree.Row :=
  [phrase 0 0 22 "program" none, phrase 1 0 22 "class_declaration" none, token 2 0 5 "class",
   phrase 2 6 9 "identifier" (some "name"), phrase 2 10 22 "class_body" (some "body"),
   token 3 10 11 "\x7b", phrase 3 12 20 "constructor_declaration" none,
   phrase 4 12 15 "identifier" (some "name"),
   phrase 4 15 17 "formal_parameters" (some "parameters"), token 5 15 16 "(", token 5 16 17 ")",
   phrase 4 18 20 "constructor_body" (some "body"), token 5 18 19 "\x7b", token 5 19 20 "\x7d",
   token 3 21 22 "\x7d"]

def methodTree : Tree :=
  .ofRaw "class Foo \x7b Bar() \x7b\x7d \x7d" ((RawTree.ofRows? methodRows).getD default)

theorem methodTree_checked : methodTree.kind Tree.root = .program ∧
    (∀ i ∈ methodTree.ids, methodTree.FitsAt i) ∧ (∀ i ∈ methodTree.ids, methodTree.FollowsAt i) ∧
    (methodTree.kind 6).isConstructor ∧ methodTree.HoistsMember 1 6 ∧
    (methodTree.opens? 1).isSome ∧ methodTree.childByField? 6 "name" = some 7 ∧
    methodTree.typeName? 1 ≠ some (methodTree.text 7) ∧ methodTree.text 7 = "Bar" ∧
    (methodTree.kind 1).isTypeDeclaration ∧ methodTree.childByField? 1 "name" = some 3 := by
  decide +kernel

theorem methodTree_isProgram : methodTree.IsProgram :=
  ⟨Tree.ofRaw_inPreorder _ _, methodTree_checked.1⟩

theorem methodTree_wellFormed : methodTree.WellFormed :=
  methodTree_isProgram.wellFormed_iff.mpr methodTree_checked.2.1

theorem methodTree_grammatical : methodTree.Grammatical :=
  Tree.grammatical_of_followsAt methodTree_checked.2.2.1

def methodClass : Symbol := ⟨0, "Foo", .type, 1, 0, none⟩

/-- What is evaluated of the resolution, at once since each evaluation walks over the tree. -/
theorem methodTree_walked : let r := Walk.upTo methodTree methodTree.size
    r.symbols[methodClass.id]? = some methodClass ∧
    Identifier.validateFor methodClass.kind "Bar" = .ok () ∧
    r.collision? methodTree methodClass "Bar" = none ∧
    r.occurrences[0]? = some ⟨0, 3, ⟨6, 9⟩, .declaration, 0⟩ ∧
    r.occurrences[1]? = some ⟨1, 7, ⟨12, 15⟩, .declaration, 1⟩ := by
  decide +kernel

theorem methodClass_symbol :
    (Walk.upTo methodTree methodTree.size).symbols[methodClass.id]? = some methodClass :=
  methodTree_walked.1

theorem plan_methodClass :
    (Walk.upTo methodTree methodTree.size).planRename methodTree methodClass "Bar" =
      .ok ⟨methodClass, "Bar", Resolution.renamePlan methodTree methodClass
        ((Walk.upTo methodTree methodTree.size).renameEdits methodClass "Bar"),
        (Walk.upTo methodTree methodTree.size).findingsFor methodClass.id⟩ := by
  obtain ⟨hs, hvalid, hclear, -⟩ := methodTree_walked
  exact Resolution.planRename_eq_ok (Walk.tidy_upTo methodTree_isProgram (Nat.le_refl _))
    methodTree_wellFormed hs hvalid hclear

theorem methodClass_meets :
    (Walk.upTo methodTree methodTree.size).Meets methodTree methodClass "Bar" 1 6 := by
  obtain ⟨-, -, -, -, -, -, hy, -, htext, hk, hx⟩ := methodTree_checked
  obtain ⟨-, -, -, hclass, hmethod⟩ := methodTree_walked
  exact ⟨hk, _, Array.mem_of_getElem? hclass, _, Array.mem_of_getElem? hmethod, rfl, hx, rfl, hy,
    Or.inl ⟨rfl, htext⟩⟩

end Sample

/-- Naming the class like the method makes a constructor of the method. -/
theorem Resolution.planRename_constructors_sample :
    ∃ r p out r', resolve Sample.methodTree = .ok r ∧ Sample.methodClass ∈ r.symbols ∧
      r.planRename Sample.methodTree Sample.methodClass "Bar" = .ok p ∧
      p.plan.apply Sample.methodTree.source = .ok out ∧
      resolve (Sample.methodTree.edited p.plan.edits out) = .ok r' ∧
      r.IsMethod Sample.methodTree 6 ∧ ¬ r.IsConstructorOf Sample.methodTree 1 6 ∧
      r'.IsConstructorOf (Sample.methodTree.edited p.plan.edits out) 1 6 := by
  obtain ⟨-, -, -, hk, hm, ho, hy, hname, -⟩ := Sample.methodTree_checked
  have hr := resolve_eq_ok Sample.methodTree_isProgram
  have hs := Array.mem_of_getElem? Sample.methodClass_symbol
  obtain ⟨hrenamed, happly⟩ := planRename_constructors Sample.methodTree Sample.methodTree_isProgram
    Sample.methodTree_grammatical _ hr Sample.methodClass hs "Bar" _ Sample.plan_methodClass
  obtain ⟨out, hout, h⟩ := happly Sample.methodTree_wellFormed.readable (by decide)
  obtain ⟨r', hr', hiff⟩ := hrenamed _ h
  refine ⟨_, _, out, r', hr, hs, Sample.plan_methodClass, hout, hr', ?_, ?_, ?_⟩
  · obtain ⟨-, -, -, o, ho, -, -, hdecl, hname, -⟩ := Sample.methodClass_meets
    exact ⟨o, ho, hdecl, hname⟩
  · rw [Walk.isConstructorOf_iff Sample.methodTree_isProgram hk hy hm Sample.methodTree_grammatical
      ho]
    exact fun h => hname h.2
  · exact (hiff 1 6 hk hm ho).1.mpr (Or.inr Sample.methodClass_meets)

end JavaRefactor
