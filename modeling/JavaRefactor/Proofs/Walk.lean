import JavaRefactor.Proofs.Hoisting
import JavaRefactor.Scope.Lookup

/-! # Visiting the nodes one after the other

The resolver in a form without stacks of its own: the nodes are visited in the order of their
numbers, and the scopes around a node are those that its parent left inside it. The walk only
adds: scopes, symbols, bindings and occurrences keep the places they were given. Declaring a name
has three outcomes, and a visit makes a few declarations and records at most one use.
-/

namespace JavaRefactor

/-- The declaration of a type or method in the scope around it. -/
def Tree.ownDeclaration? (t : Tree) (i : NodeId) : Option Declaration :=
  if (t.kind i).isTypeDeclaration then t.declaration? i .type
  else if t.kind i = .methodDeclaration then t.declaration? i .method
  else none

def Resolution.containerOf (r : Resolution) (scope : ScopeId) : Option SymbolId :=
  r.scopes[scope]?.bind fun home => if home.kind = .type then home.owner else none

namespace Walk

/-- What has been recorded, and for each visited node the scopes around its children, innermost
first; none if the node was passed over. -/
structure Trail extends Walk where
  inside : Array (Option (List ScopeId)) := #[]

instance : CoeOut Trail Walk := ⟨Trail.toWalk⟩

namespace Trail

/-- The scopes around a node, none if it lies in a part that is passed over. -/
def outside (w : Trail) (t : Tree) (i : NodeId) : Option (List ScopeId) :=
  match t.parent? i with
  | none => some []
  | some p => w.inside.getD p none

def reached? (w : Trail) (t : Tree) (i : NodeId) : Option (List ScopeId) :=
  if t.isError i && i != Tree.root then none else w.outside t i

def frame? (w : Trail) (t : Tree) (i : NodeId) : Option (List ScopeId) :=
  (w.reached? t i).map fun stack =>
    if (t.opens? i).isSome then w.scopes.size :: stack else stack

end Trail

def visit (t : Tree) (w : Trail) (i : NodeId) : Trail :=
  match w.reached? t i with
  | none => { w with inside := w.inside.push none }
  | some stack =>
    let entered := w.enter t stack i
    { toWalk := entered.1, inside := w.inside.push (some entered.2) }

def upTo (t : Tree) (count : Nat) : Trail := (List.range count).foldl (visit t) {}

variable {t : Tree} {w w' w'' : Walk} {v : Trail} {i : Nat} {stack : List ScopeId} {d : Declaration}

/-- Nothing that `w` holds has been changed or moved in `w'`. -/
structure Extends (w w' : Walk) : Prop where
  scopes : w.scopes.toList <+: w'.scopes.toList
  symbols : w.symbols.toList <+: w'.symbols.toList
  bindings : w.bindings.toList <+: w'.bindings.toList
  occurrences : w.occurrences.toList <+: w'.occurrences.toList
  findings : w.findings.toList <+: w'.findings.toList

theorem Extends.refl (w : Walk) : Extends w w := by
  constructor <;> exact List.prefix_rfl

theorem Extends.trans (h : Extends w w') (h' : Extends w' w'') : Extends w w'' :=
  ⟨h.scopes.trans h'.scopes, h.symbols.trans h'.symbols, h.bindings.trans h'.bindings,
    h.occurrences.trans h'.occurrences, h.findings.trans h'.findings⟩

def declaredAs (t : Tree) (stack : List ScopeId) (d : Declaration) (id : SymbolId) : Occurrence :=
  ⟨id, d.name, t.span d.name, .declaration, current stack⟩

def newSymbol (t : Tree) (stack : List ScopeId) (d : Declaration) (id : SymbolId)
    (container : Option SymbolId) : Symbol :=
  ⟨id, t.text d.name, d.kind, d.node, current stack, container⟩

/-- The three outcomes of a declaration: another declaration of a method, a duplicate, or a
new binding. -/
inductive Declared (t : Tree) (stack : List ScopeId) (w : Walk) (d : Declaration) :
    Walk → Prop where
  | overload {id : SymbolId} (home : current stack < w.scopes.size) (kind : d.kind = .method)
      (found : w.boundIn? (current stack) d.kind.space (t.text d.name) = some id) :
      Declared t stack w d { w with
        occurrences := w.occurrences.push (declaredAs t stack d id)
        declared := (d.node, id) :: w.declared
        handled := d.name :: w.handled }
  | duplicate {first : SymbolId}
      (home : current stack < w.scopes.size) (kind : d.kind ≠ .method)
      (found : w.boundIn? (current stack) d.kind.space (t.text d.name) = some first) :
      Declared t stack w d { w with
        occurrences := w.occurrences.push (declaredAs t stack d w.symbols.size)
        declared := (d.node, w.symbols.size) :: w.declared
        handled := d.name :: w.handled
        symbols := w.symbols.push
          (newSymbol t stack d w.symbols.size (w.containerOf (current stack)))
        twins := pair (w.twins.push []) first w.symbols.size
        findings := w.findings.push
          (.duplicate (t.text d.name) d.name (t.span d.name) w.symbols.size first) }
  | fresh (home : current stack < w.scopes.size)
      (found : w.boundIn? (current stack) d.kind.space (t.text d.name) = none) :
      Declared t stack w d { w with
        occurrences := w.occurrences.push (declaredAs t stack d w.symbols.size)
        declared := (d.node, w.symbols.size) :: w.declared
        handled := d.name :: w.handled
        symbols := w.symbols.push
          (newSymbol t stack d w.symbols.size (w.containerOf (current stack)))
        twins := w.twins.push []
        bindings := w.bindings.push
          ⟨current stack, d.kind.space, t.text d.name, w.symbols.size⟩ }

theorem declare_declared (h : current stack < w.scopes.size) :
    Declared t stack w d (w.declare t stack d) := by
  obtain ⟨home, hhome⟩ : ∃ home, w.scopes[current stack]? = some home :=
    ⟨w.scopes[current stack], by simp [h]⟩
  have hcontainer : (if home.kind = .type then home.owner else none) =
      w.containerOf (current stack) := by
    simp [Resolution.containerOf, hhome]
  unfold declare
  simp only [hhome, hcontainer]
  cases hf : w.boundIn? (current stack) d.kind.space (t.text d.name) with
  | none =>
    have hover : (if d.kind = .method then (none : Option SymbolId) else none) = none := by
      split <;> rfl
    simp only [hover, Option.isSome_none, Bool.false_eq_true, if_false, Option.getD_none]
    exact .fresh h hf
  | some id =>
    by_cases hk : d.kind = .method
    · simp only [hk, if_true, Option.isSome_some, Option.getD_some]
      exact .overload h hk (hk ▸ hf)
    · simp only [hk, if_false, Option.isSome_none, Bool.false_eq_true, Option.getD_none]
      exact .duplicate h hk hf

inductive Declares (t : Tree) (i : NodeId) (w : Walk) (stack : List ScopeId) (d : Declaration) :
    Prop where
  | hoisted (mem : d ∈ t.hoisted i)
      (fresh : ∀ o ∈ w.occurrences.toList, o.scope = current stack → o.node ≠ d.name)
  | own (name : t.ownDeclaration? i = some d) (new : w.declaredBy? i = none)
  | here (role : t.role i = .declares d) (new : ∀ o ∈ w.occurrences.toList, o.node ≠ i)

inductive Records (t : Tree) (i : NodeId) (w : Walk) : Occurrence → Prop where
  | reference {stack : List ScopeId} {target : Target} {id : SymbolId}
      (role : t.role i = .uses target) (new : ∀ o ∈ w.occurrences.toList, o.node ≠ i)
      (scope : current stack < w.scopes.size)
      (found : w.find? stack (t.text i) target = some id) :
      Records t i w ⟨id, i, t.span i, .reference, current stack⟩
  | constructor {stack : List ScopeId} {name : NodeId} {owner : SymbolId}
      (kind : (t.kind i).isConstructor) (child : t.childByField? i "name" = some name)
      (new : ∀ o ∈ w.occurrences.toList, o.node ≠ name) (scope : current stack < w.scopes.size)
      (found : w.typeOwner? stack = some owner)
      (same : (w.symbols[owner]?.map (·.name)) = some (t.text name)) :
      Records t i w ⟨owner, name, t.span name, .constructor, current stack⟩

/-- The walk with an occurrence that is no declaration. A reference settles no name. -/
def recorded (w : Walk) (o : Occurrence) : Walk :=
  { w.addOccurrence o with
    handled := if o.kind = .reference then w.handled else o.node :: w.handled }

/-- The scopes stand one around the other, the innermost first. -/
def Linked (scopes : Array Scope) : List ScopeId → Prop
  | [] => True
  | s :: rest => (∃ scope, scopes[s]? = some scope ∧ scope.parent? = rest.head?) ∧
      (∀ x ∈ rest, x < s) ∧ Linked scopes rest

def Within (w : Walk) : Prop := ∀ o ∈ w.occurrences.toList, o.scope < w.scopes.size

/-- Before the visit of `i` the settled names are those of all occurrences but the references, and
references stand at nodes before `i`. -/
structure Accounted (i : Nat) (w : Walk) : Prop where
  handled : ∀ n, n ∈ w.handled ↔
    ∃ o ∈ w.occurrences.toList, o.kind ≠ .reference ∧ o.node = n
  visited : ∀ o ∈ w.occurrences.toList, o.kind = .reference → o.node < i

/-- All recorded stacks hold some scope and consist of scopes around each other. -/
structure Framed (i : Nat) (w : Trail) : Prop extends Accounted i w.toWalk where
  linked : ∀ (j : Nat) (stack : List ScopeId), w.inside[j]? = some (some stack) →
    stack ≠ [] ∧ Linked w.scopes stack
  within : w.Within

/-- At a node that is still to be visited, the settled names are those that have an occurrence. -/
theorem Accounted.isSettled_iff (hw : w.Accounted i) {n : Nat} (hn : i ≤ n) :
    w.isSettled n ↔ ∃ o ∈ w.occurrences.toList, o.node = n := by
  rw [isSettled, List.contains_iff_mem, hw.handled]
  refine exists_congr fun o => and_congr_right fun ho => and_iff_right_of_imp fun he hk => ?_
  exact Nat.not_lt.mpr hn (he ▸ hw.visited o ho hk)

theorem Accounted.isSettled_eq_false_iff (hw : w.Accounted i) {n : Nat} (hn : i ≤ n) :
    w.isSettled n = false ↔ ∀ o ∈ w.occurrences.toList, o.node ≠ n := by
  rw [← Bool.not_eq_true, hw.isSettled_iff hn]
  simp

theorem Linked.current_lt {scopes : Array Scope} (h : Linked scopes stack) (hne : stack ≠ []) :
    current stack < scopes.size := by
  cases stack with
  | nil => exact absurd rfl hne
  | cons s rest =>
    obtain ⟨⟨scope, hs, -⟩, -⟩ := h
    exact (Array.getElem?_eq_some_iff.mp hs).1

theorem Linked.lt {scopes : Array Scope} : ∀ {stack : List ScopeId}, Linked scopes stack →
    ∀ x ∈ stack, x < scopes.size
  | s :: _, ⟨⟨_, hsc, _⟩, _, hl⟩, x, hx => by
      rcases List.mem_cons.mp hx with rfl | hx
      · exact (Array.getElem?_eq_some_iff.mp hsc).1
      · exact hl.lt x hx

theorem Declared.home (h : Declared t stack w d w') : current stack < w.scopes.size := by
  cases h <;> assumption

theorem Declared.scopes_eq (h : Declared t stack w d w') : w'.scopes = w.scopes := by
  cases h <;> rfl

theorem Declared.stray_eq (h : Declared t stack w d w') : w'.stray = w.stray := by
  cases h <;> rfl

theorem declare_of_size_le (h : w.scopes.size ≤ current stack) :
    w.declare t stack d = { w with stray := true } := by
  unfold declare
  simp [h]

@[simp] theorem declare_scopes : (w.declare t stack d).scopes = w.scopes := by
  rcases Nat.lt_or_ge (current stack) w.scopes.size with h | h
  · exact (declare_declared h).scopes_eq
  · rw [declare_of_size_le h]

theorem foldl_declare_scopes (l : List Declaration) :
    (l.foldl (declare t stack) w).scopes = w.scopes := by
  induction l generalizing w with
  | nil => rfl
  | cons d l ih => exact ih.trans declare_scopes

theorem visitIdentifier_scopes : (w.visitIdentifier t stack i).scopes = w.scopes := by
  unfold visitIdentifier
  split
  · rfl
  · split
    · rfl
    · exact declare_scopes
    · unfold bindUse
      simp only
      split <;> rfl

theorem nameConstructor_scopes : (w.nameConstructor t stack i).scopes = w.scopes := by
  unfold nameConstructor
  split
  · rfl
  · split
    · rfl
    · split
      · rfl
      · split <;> rfl

theorem announce_eq : w.announce t stack i =
    if (t.kind i).isConstructor then w.nameConstructor t stack i
    else if (w.declaredBy? i).isSome then w
    else (t.ownDeclaration? i).elim w (w.declare t stack) := by
  unfold announce
  simp only
  split
  case h_6 hk | h_7 hk | h_8 hk =>
    simp [hk, NodeKind.isConstructor, Tree.ownDeclaration?, NodeKind.isTypeDeclaration]
  case h_9 =>
    cases hk : t.kind i <;>
      simp_all [NodeKind.isConstructor, Tree.ownDeclaration?, NodeKind.isTypeDeclaration]
  all_goals
    rename_i hk
    simp [hk, NodeKind.isConstructor, Tree.ownDeclaration?, NodeKind.isTypeDeclaration]

theorem announce_scopes : (w.announce t stack i).scopes = w.scopes := by
  rw [announce_eq]
  split
  · exact nameConstructor_scopes
  · split
    · rfl
    · cases t.ownDeclaration? i with
      | none => rfl
      | some d => exact declare_scopes

def opened (t : Tree) (stack : List ScopeId) (w : Walk) (i : NodeId) (kind : ScopeKind) : Walk :=
  (w.announce t stack i).openScope t stack i kind

theorem visit_of_passed (h : v.reached? t i = none) :
    visit t v i = { v with inside := v.inside.push none } := by
  simp [visit, h]

theorem visit_of_reached (h : v.reached? t i = some stack) : visit t v i =
    { toWalk := (v.enter t stack i).1
      inside := v.inside.push (some (v.enter t stack i).2) } := by
  simp [visit, h]

theorem visit_of_plain (h : v.reached? t i = some stack) (ho : t.opens? i = none) :
    visit t v i =
      { toWalk := v.visitIdentifier t stack i, inside := v.inside.push (some stack) } := by
  simp [visit_of_reached h, enter, ho]

theorem visit_of_opens {kind : ScopeKind} (h : v.reached? t i = some stack)
    (ho : t.opens? i = some kind) :
    visit t v i =
      { toWalk := (t.hoisted i).foldl (declare t (v.scopes.size :: stack)) (v.opened t stack i kind)
        inside := v.inside.push (some (v.scopes.size :: stack)) } := by
  simp [visit_of_reached h, enter, ho, announce_scopes, opened]

theorem visit_inside : (visit t v i).inside = v.inside.push (v.frame? t i) := by
  cases hr : v.reached? t i with
  | none => simp [visit_of_passed hr, Trail.frame?, hr]
  | some stack =>
    cases ho : t.opens? i with
    | none => simp [visit_of_plain hr ho, Trail.frame?, hr, ho]
    | some kind => simp [visit_of_opens hr ho, Trail.frame?, hr, ho]

theorem visit_scopes_of_not_opens (h : v.reached? t i = none ∨ t.opens? i = none) :
    (visit t v i).scopes = v.scopes := by
  cases hr : v.reached? t i with
  | none => rw [visit_of_passed hr]
  | some stack =>
    rw [visit_of_plain hr (h.resolve_left (by simp [hr]))]
    exact visitIdentifier_scopes

theorem visit_scopes_of_opens {kind : ScopeKind} (h : v.reached? t i = some stack)
    (ho : t.opens? i = some kind) :
    (visit t v i).scopes = v.scopes.push ((v.announce t stack i).newScope t stack i kind) := by
  rw [visit_of_opens h ho]
  simp only [foldl_declare_scopes, opened, openScope, announce_scopes]

theorem outside_eq_some_iff : v.outside t i = some stack ↔ t.parent? i = none ∧ stack = [] ∨
    ∃ p, t.parent? i = some p ∧ v.inside[p]? = some (some stack) := by
  unfold Trail.outside
  cases t.parent? i with
  | none => simp [eq_comm]
  | some p =>
    simp only [Array.getD_eq_getD_getElem?]
    cases h : v.inside[p]? <;> simp [h]

theorem outside_of_reached? (h : v.reached? t i = some stack) : v.outside t i = some stack := by
  unfold Trail.reached? at h
  split at h
  · simp at h
  · exact h

theorem Framed.reached {k : Nat} (hv : Framed k v) (ht : t.InPreorder) (hi : i < t.size)
    (h : v.reached? t i = some stack) :
    i = Tree.root ∧ stack = [] ∨ stack ≠ [] ∧ Linked v.scopes stack := by
  rcases outside_eq_some_iff.mp (outside_of_reached? h) with ⟨hp, rfl⟩ | ⟨p, -, hs⟩
  · refine Or.inl ⟨?_, rfl⟩
    rcases Nat.eq_zero_or_pos i with h0 | h0
    · exact h0
    · obtain ⟨p, hp'⟩ := ht.exists_parent h0 hi
      simp [hp] at hp'
  · exact Or.inr (hv.linked p stack hs)

theorem Framed.current_lt {k : Nat} (hv : Framed k v) (ht : t.IsProgram) (hi : i < t.size)
    (h : v.reached? t i = some stack) (hk : t.kind i ≠ .program) :
    current stack < v.scopes.size := by
  rcases hv.reached ht.toInPreorder hi h with ⟨rfl, -⟩ | ⟨hne, hl⟩
  · exact absurd ht.program hk
  · exact hl.current_lt hne

theorem opens?_root (ht : t.IsProgram) : t.opens? Tree.root = some .file := by
  simp [Tree.opens?, ht.program]

theorem Declared.mem_occurrences (h : Declared t stack w d w') {o : Occurrence}
    (ho : o ∈ w'.occurrences.toList) :
    o ∈ w.occurrences.toList ∨ ∃ id, o = declaredAs t stack d id := by
  cases h <;> simp only [Array.toList_push, List.mem_append, List.mem_singleton] at ho
  all_goals exact ho.imp_right fun h => ⟨_, h⟩

theorem mem_occurrences_recorded {o o' : Occurrence} :
    o' ∈ (w.recorded o).occurrences.toList ↔ o' ∈ w.occurrences.toList ∨ o' = o := by
  simp [recorded, addOccurrence]

theorem Within.declared (hw : w.Within) (h : Declared t stack w d w') : w'.Within := by
  intro o ho
  rw [h.scopes_eq]
  rcases h.mem_occurrences ho with ho | ⟨id, rfl⟩
  · exact hw o ho
  · exact h.home

theorem Within.records (hw : w.Within) {o : Occurrence} (h : Records t i w o) :
    (w.recorded o).Within := by
  intro o' ho
  rcases mem_occurrences_recorded.mp ho with ho | rfl
  · exact hw o' ho
  · cases h <;> assumption

theorem Accounted.declared {k : Nat} (hw : w.Accounted k) (h : Declared t stack w d w') :
    w'.Accounted k := by
  obtain ⟨id, hocc, hhandled⟩ : ∃ id, w'.occurrences = w.occurrences.push
      (declaredAs t stack d id) ∧ w'.handled = d.name :: w.handled := by
    cases h <;> exact ⟨_, rfl, rfl⟩
  constructor
  · intro n
    simp only [hhandled, hocc, List.mem_cons, hw.handled, Array.toList_push, List.mem_append,
      or_and_right, exists_or]
    simp [declaredAs, or_comm, eq_comm]
  · intro o ho hk
    rw [hocc, Array.toList_push, List.mem_append, List.mem_singleton] at ho
    rcases ho with ho | rfl
    · exact hw.visited o ho hk
    · simp [declaredAs] at hk

theorem Accounted.records (hw : w.Accounted (i + 1)) {o : Occurrence} (h : Records t i w o) :
    (w.recorded o).Accounted (i + 1) := by
  constructor
  · intro n
    simp only [mem_occurrences_recorded, or_and_right, exists_or, exists_eq_left, ← hw.handled]
    by_cases hk : o.kind = .reference
    · simp [recorded, hk]
    · simp [recorded, hk, or_comm, eq_comm]
  · intro o' ho hk
    rcases mem_occurrences_recorded.mp ho with ho | rfl
    · exact hw.visited o' ho hk
    · cases h with
      | reference => exact Nat.lt_succ_self i
      | constructor => simp at hk

theorem Accounted.mono {k k' : Nat} (hw : w.Accounted k) (hk : k ≤ k') : w.Accounted k' :=
  ⟨hw.handled, fun o ho hr => Nat.lt_of_lt_of_le (hw.visited o ho hr) hk⟩

section Preservation

variable {P : Walk → Prop}

theorem visitIdentifier_preserves (hw : w.Accounted i)
    (hstack : t.role i ≠ .ignored → current stack < w.scopes.size)
    (finding : ∀ w use target, t.role i = .uses target → P w →
      P { w with findings := w.findings.push (.unresolved use) })
    (declare : ∀ {w w' : Walk} {stack d}, Declares t i w stack d → Declared t stack w d w' →
      P w → P w')
    (occur : ∀ {w : Walk} {o}, Records t i w o → P w → P (w.recorded o)) (h : P w) :
    P (w.visitIdentifier t stack i) := by
  unfold visitIdentifier
  split
  · exact h
  next hnew =>
    have hnew := (hw.isSettled_eq_false_iff (Nat.le_refl i)).mp (by simpa using hnew)
    split
    next => exact h
    next d hd => exact declare (.here hd hnew) (declare_declared (hstack (by simp [hd]))) h
    next target ht =>
      unfold bindUse
      simp only
      split
      next id hid => exact occur (.reference ht hnew (hstack (by simp [ht])) hid) h
      next => exact finding _ _ target ht h

theorem announce_preserves (hw : w.Accounted i) (ht : t.InPreorder)
    (hstack : t.kind i ≠ .program → current stack < w.scopes.size)
    (declare : ∀ {w w' : Walk} {stack d}, Declares t i w stack d → Declared t stack w d w' →
      P w → P w')
    (occur : ∀ {w : Walk} {o}, Records t i w o → P w → P (w.recorded o)) (h : P w) :
    P (w.announce t stack i) := by
  rw [announce_eq]
  split
  next hk =>
    have hstack := hstack fun he => by simp [he, NodeKind.isConstructor] at hk
    unfold nameConstructor
    split
    next => exact h
    next name hname =>
      split
      · exact h
      next hnew =>
        have hle := Nat.le_of_lt (ht.parent_lt (ht.parent_of_childByField? hname))
        have hnew := (hw.isSettled_eq_false_iff hle).mp (by simpa using hnew)
        split
        next => exact h
        next owner ho =>
          split
          next hs => exact occur (.constructor hk hname hnew hstack ho (by simpa using hs)) h
          next => exact h
  next =>
    split
    · exact h
    next hnew =>
      cases hd : t.ownDeclaration? i with
      | none => exact h
      | some d =>
        have hnew : w.declaredBy? i = none := by simpa using hnew
        refine declare (.own hd hnew) (declare_declared (hstack fun he => ?_)) h
        simp [Tree.ownDeclaration?, he, NodeKind.isTypeDeclaration] at hd

theorem foldl_declare_preserves {l : List Declaration} (hstack : current stack < w.scopes.size)
    (hl : ∀ d ∈ l, d ∈ t.hoisted i) (hnodup : (l.map (·.name)).Nodup)
    (hnew : ∀ d ∈ l, ∀ o ∈ w.occurrences.toList, o.scope = current stack → o.node ≠ d.name)
    (declare : ∀ {w w' : Walk} {stack d}, Declares t i w stack d → Declared t stack w d w' →
      P w → P w')
    (h : P w) : P (l.foldl (Walk.declare t stack) w) := by
  induction l generalizing w with
  | nil => exact h
  | cons d l ih =>
    have hd := declare_declared (t := t) (d := d) hstack
    have hdl := List.mem_cons_self (a := d) (l := l)
    rw [List.map_cons, List.nodup_cons] at hnodup
    refine ih (hd.scopes_eq ▸ hstack) (fun d' hd' => hl d' (List.mem_cons_of_mem _ hd')) hnodup.2 ?_
      (declare (.hoisted (hl d hdl) (hnew d hdl)) hd h)
    intro d' hd' o ho hs
    rcases hd.mem_occurrences ho with ho | ⟨id, rfl⟩
    · exact hnew d' (List.mem_cons_of_mem _ hd') o ho hs
    · rintro he
      exact hnodup.1 (List.mem_map.mpr ⟨d', hd', he.symm⟩)

/-- What the parts of a visit keep, the visit keeps. -/
theorem visit_preserves_opening (ht : t.IsProgram) (hi : i < t.size) (hv : Framed i v)
    (scope : ∀ (w : Walk) stack kind, (∀ x ∈ stack, x < w.scopes.size) → P w →
      P (w.openScope t stack i kind))
    (finding : ∀ (w : Walk) use target, t.role i = .uses target → P w →
      P { w with findings := w.findings.push (.unresolved use) })
    (declare : ∀ {w w' : Walk} {stack d}, Declares t i w stack d → Declared t stack w d w' →
      P w → P w')
    (occur : ∀ {w : Walk} {o}, Records t i w o → P w → P (w.recorded o)) (h : P v) :
    P (visit t v i) := by
  cases hr : v.reached? t i with
  | none => exact visit_of_passed hr ▸ h
  | some stack =>
    have hstack := hv.current_lt ht hi hr
    cases ho : t.opens? i with
    | none =>
      rw [visit_of_plain hr ho]
      refine visitIdentifier_preserves hv.toAccounted (fun hk => hstack fun hk' => hk ?_) finding
        declare occur h
      simp [Tree.role, hk']
    | some kind =>
      rw [visit_of_opens hr ho]
      have hin : ∀ x ∈ stack, x < (v.announce t stack i).scopes.size := by
        rw [announce_scopes]
        rcases hv.reached ht.toInPreorder hi hr with ⟨-, rfl⟩ | ⟨-, hl⟩
        · simp
        · exact hl.lt
      have hannounce {Q : Walk → Prop} :=
        announce_preserves (P := Q) hv.toAccounted ht.toInPreorder hstack
      refine foldl_declare_preserves ?_ (fun d hd => hd) (Tree.nodup_hoisted ht.toInPreorder i) ?_
        declare (scope _ _ _ hin (hannounce declare occur h))
      · simp [current, opened, openScope, announce_scopes]
      · intro d _ o ho hs
        have hlt : o.scope < (v.announce t stack i).scopes.size :=
          hannounce (fun _ hd h => h.declared hd) (fun hr h => h.records hr) hv.within o ho
        rw [announce_scopes] at hlt
        exact Nat.ne_of_lt hlt hs |>.elim

/-- The same for what any scope and any finding would keep. -/
theorem visit_preserves (ht : t.IsProgram) (hi : i < t.size) (hv : Framed i v)
    (scope : ∀ (w : Walk) s n, P w → P { w with scopes := w.scopes.push s, nested := n })
    (finding : ∀ (w : Walk) f target, t.role i = .uses target → P w →
      P { w with findings := w.findings.push f })
    (declare : ∀ {w w' : Walk} {stack d}, Declares t i w stack d → Declared t stack w d w' →
      P w → P w')
    (occur : ∀ {w : Walk} {o}, Records t i w o → P w → P (w.recorded o)) (h : P v) :
    P (visit t v i) :=
  visit_preserves_opening ht hi hv (fun w _ _ _ => scope w _ _) (fun w _ => finding w _) declare
    occur h

end Preservation

theorem upTo_zero (t : Tree) : upTo t 0 = {} := rfl

theorem upTo_succ (t : Tree) (k : Nat) : upTo t (k + 1) = visit t (upTo t k) k := by
  simp [upTo, List.range_succ]

theorem size_inside_upTo (t : Tree) (k : Nat) : (upTo t k).inside.size = k := by
  induction k with
  | zero => rfl
  | succ k ih => rw [upTo_succ, visit_inside, Array.size_push, ih]

theorem inside_upTo {j k : Nat} (hjk : j < k) :
    (upTo t k).inside[j]? = some ((upTo t j).frame? t j) := by
  induction k with
  | zero => omega
  | succ k ih =>
    rw [upTo_succ, visit_inside, Array.getElem?_push, size_inside_upTo]
    rcases Nat.lt_or_eq_of_le (Nat.le_of_lt_succ hjk) with hlt | rfl
    · rw [if_neg (by omega), ih hlt]
    · simp

theorem outside_upTo (ht : t.InPreorder) {j p : Nat} (hp : t.parent? j = some p) :
    (upTo t j).outside t j = (upTo t p).frame? t p := by
  have hin := inside_upTo (t := t) (ht.parent_lt hp)
  simp [Trail.outside, hp, Array.getD_eq_getD_getElem?, hin]

theorem getD_push_nil (lists : Array (List Nat)) (k : Nat) :
    (lists.push []).getD k [] = lists.getD k [] := by
  simp only [Array.getD_eq_getD_getElem?, Array.getElem?_push]
  split
  next hk => simp [hk]
  next => rfl

theorem getD_modify_append {lists : Array (List Nat)} {p : Nat} (hp : p < lists.size) {x k : Nat} :
    (lists.modify p (· ++ [x])).getD k [] =
      lists.getD k [] ++ if p = k then [x] else [] := by
  simp only [Array.getD_eq_getD_getElem?, Array.getElem?_modify]
  by_cases hk : p = k
  · subst hk
    simp [hp]
  · simp [hk]

theorem getElem?_mono {α : Type} {a b : Array α} (h : a.toList <+: b.toList) {k : Nat} {x : α}
    (hx : a[k]? = some x) : b[k]? = some x := by
  obtain ⟨l, hl⟩ := h
  rw [← Array.getElem?_toList] at hx ⊢
  rw [← hl, List.getElem?_append_left (List.getElem?_eq_some_iff.mp hx).1, hx]

theorem Linked.mono {scopes scopes' : Array Scope} (hs : scopes.toList <+: scopes'.toList) :
    ∀ {stack : List ScopeId}, Linked scopes stack → Linked scopes' stack
  | [], _ => trivial
  | _ :: _, ⟨⟨scope, hsc, he⟩, hlt, hl⟩ => by
      exact ⟨⟨scope, getElem?_mono hs hsc, he⟩, hlt, hl.mono hs⟩

theorem Declared.extends (h : Declared t stack w d w') : Extends w w' := by
  cases h <;> constructor <;> simp

theorem visit_extends (ht : t.IsProgram) (hi : i < t.size) (hv : Framed i v) :
    Extends v (visit t v i) := by
  refine visit_preserves ht hi hv ?_ ?_ ?_ ?_ (Extends.refl v)
  · exact fun w' _ _ h => h.trans ⟨by simp, by simp, by simp, by simp, by simp⟩
  · exact fun w' _ _ _ h => h.trans ⟨by simp, by simp, by simp, by simp, by simp⟩
  · exact fun _ hd h => h.trans hd.extends
  · exact fun _ h => h.trans ⟨List.prefix_rfl, List.prefix_rfl, List.prefix_rfl,
      by simp [recorded, addOccurrence], List.prefix_rfl⟩

theorem visit_linked (hv : Framed i v) (ht : t.IsProgram) (hi : i < t.size) {j : Nat}
    (hj : (visit t v i).inside[j]? = some (some stack)) :
    stack ≠ [] ∧ Linked (visit t v i).scopes stack := by
  have hscopes := (visit_extends ht hi hv).scopes
  rw [visit_inside, Array.getElem?_push] at hj
  split at hj
  next =>
    obtain ⟨outer, hr, hs⟩ := Option.map_eq_some_iff.mp (Option.some.inj hj)
    split at hs
    next ho =>
      obtain ⟨kind, ho⟩ := Option.isSome_iff_exists.mp ho
      subst hs
      have hout : Linked v.scopes outer := by
        rcases hv.reached ht.toInPreorder hi hr with ⟨-, rfl⟩ | ⟨-, hl⟩
        · trivial
        · exact hl
      refine ⟨by simp, ⟨⟨(v.announce t outer i).newScope t outer i kind, ?_, rfl⟩, hout.lt,
        hout.mono hscopes⟩⟩
      rw [visit_scopes_of_opens hr ho, Array.getElem?_push_size]
    next ho =>
      subst hs
      rcases hv.reached ht.toInPreorder hi hr with ⟨rfl, -⟩ | ⟨hne, hl⟩
      · simp [opens?_root ht] at ho
      · exact ⟨hne, hl.mono hscopes⟩
  next =>
    obtain ⟨hne, hl⟩ := hv.linked j stack hj
    exact ⟨hne, hl.mono hscopes⟩

theorem Framed.visit (hv : Framed i v) (ht : t.IsProgram) (hi : i < t.size) :
    Framed (i + 1) (visit t v i) where
  toAccounted := visit_preserves ht hi hv (fun _ _ _ h => ⟨h.handled, h.visited⟩)
    (fun _ _ _ _ h => ⟨h.handled, h.visited⟩) (fun _ hd h => h.declared hd)
    (fun hr h => h.records hr) (hv.toAccounted.mono (Nat.le_succ i))
  linked _ _ hj := visit_linked hv ht hi hj
  within := visit_preserves ht hi hv
    (fun w s _ h o ho => Nat.lt_of_lt_of_le (h o ho) (by simp)) (fun _ _ _ _ h => h)
    (fun _ hd h => h.declared hd) (fun hr h => h.records hr) hv.within

theorem framed_upTo (ht : t.IsProgram) {k : Nat} (hk : k ≤ t.size) : Framed k (upTo t k) := by
  induction k with
  | zero =>
    exact ⟨⟨by simp [upTo_zero], by simp [upTo_zero]⟩, by simp [upTo_zero],
      fun o ho => by simp [upTo_zero] at ho⟩
  | succ k ih =>
    rw [upTo_succ]
    exact (ih (by omega)).visit ht (by omega)

/-- What a visit keeps, the walk keeps. -/
theorem upTo_induction {P : Nat → Trail → Prop} (ht : t.IsProgram) (start : P 0 {})
    (step : ∀ k v, k < t.size → Framed k v → v = upTo t k → P k v → P (k + 1) (Walk.visit t v k)) :
    ∀ {k : Nat}, k ≤ t.size → P k (upTo t k) := by
  intro k hk
  induction k with
  | zero => exact start
  | succ k ih =>
    rw [upTo_succ]
    exact step k _ (by omega) (framed_upTo ht (by omega)) rfl (ih (by omega))

theorem upTo_extends (ht : t.IsProgram) {k m : Nat} (hkm : k ≤ m) (hm : m ≤ t.size) :
    Extends (upTo t k) (upTo t m) := by
  induction hkm with
  | refl => exact Extends.refl _
  | step _ ih =>
    rw [upTo_succ]
    exact (ih (by omega)).trans (visit_extends ht (by omega) (framed_upTo ht (by omega)))

theorem stray_upTo (ht : t.IsProgram) {k : Nat} (hk : k ≤ t.size) : (upTo t k).stray = false := by
  refine upTo_induction (P := fun _ v => v.stray = false) ht rfl ?_ hk
  intro k v hk hv _ h
  exact visit_preserves (P := fun w => w.stray = false) ht hk hv (fun _ _ _ h => h)
    (fun _ _ _ _ h => h) (fun _ hd h => hd.stray_eq.trans h) (fun _ h => h) h

end Walk

end JavaRefactor
