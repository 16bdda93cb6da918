import JavaRefactor.Proofs.Binding

/-! # Uses of names

A use is bound, or reported as unresolved, when the walk reaches it, by what has been declared
until then. Its outcome can therefore be read off the outline of the nodes before it.
-/

namespace JavaRefactor

namespace Walk

variable {t : Tree} {w w' : Walk} {v : Trail} {u i k : Nat} {stack : List ScopeId}
  {target : Target}

/-- The identifier `u` is looked up in the scopes of a stack. -/
structure UseAt (t : Tree) (u : Nat) (stack : List ScopeId) (target : Target) : Prop where
  lt : u < t.size
  role : t.role u = .uses target
  reached : (upTo t u).reached? t u = some stack
  new : (upTo t u).isSettled u = false

theorem UseAt.node_ne (hu : UseAt t u stack target) (ht : t.IsProgram) {o : Occurrence}
    (ho : o ∈ (upTo t u).occurrences.toList) : o.node ≠ u :=
  ((framed_upTo ht (Nat.le_of_lt hu.lt)).isSettled_eq_false_iff (Nat.le_refl u)).mp hu.new o ho

def referenceAt (t : Tree) (u : NodeId) (stack : List ScopeId) (id : SymbolId) : Occurrence :=
  ⟨id, u, t.span u, .reference, current stack⟩

def unresolvedAt (t : Tree) (u : NodeId) (stack : List ScopeId) (target : Target) : UnresolvedUse :=
  ⟨t.text u, u, t.span u, current stack, target.space, target == .expression⟩

theorem opens?_of_role (h : t.role i ≠ .ignored) : t.opens? i = none := by
  unfold Tree.role at h
  split at h
  next hk => simp [Tree.opens?, hk]
  next hk => simp [Tree.opens?, hk]
  next => exact absurd rfl h

def SameUses (w w' : Walk) : Prop :=
  (∀ o, o.kind = .reference → (o ∈ w'.occurrences.toList ↔ o ∈ w.occurrences.toList)) ∧
    w'.unresolved = w.unresolved

theorem visit_of_not_uses (ht : t.IsProgram) (hi : i < t.size) (hv : Framed i v)
    (h : ∀ target, t.role i ≠ .uses target) : SameUses v (visit t v i) := by
  refine visit_preserves (P := SameUses v) ht hi hv (fun _ _ _ h => h)
    (fun _ _ target hr => absurd hr (h target)) ?_ ?_ ⟨fun _ _ => Iff.rfl, rfl⟩
  · rintro w₁ w₂ stack d - hd ⟨hocc, hun⟩
    constructor
    · intro o ho
      obtain ⟨id, he, -⟩ := hd.occurrences_eq
      rw [he, Array.toList_push, List.mem_append, List.mem_singleton, hocc o ho]
      refine or_iff_left fun he => ?_
      simp [he, declaredAs] at ho
    · rw [← hun]
      cases hd <;> simp [Resolution.unresolved, Finding.unresolved?]
  · rintro w₁ o hr ⟨hocc, hun⟩
    refine ⟨fun o' ho' => ?_, hun⟩
    rw [mem_occurrences_recorded, hocc o' ho']
    refine or_iff_left fun he => ?_
    cases hr with
    | reference role => exact h _ role
    | constructor => simp [he] at ho'

theorem visit_of_uses (hrole : t.role i = .uses target) :
    (visit t v i).occurrences.toList = v.occurrences.toList ++
      ((v.reached? t i).bind fun stack => if v.isSettled i then none else
        (v.find? stack (t.text i) target).map (referenceAt t i stack)).toList ∧
    (visit t v i).unresolved = v.unresolved ++
      ((v.reached? t i).bind fun stack => if v.isSettled i then none else
        if (v.find? stack (t.text i) target).isSome then none
        else some (unresolvedAt t i stack target)).toList := by
  cases hr : v.reached? t i with
  | none => rw [visit_of_passed hr]; simp [Resolution.unresolved]
  | some stack =>
    rw [visit_of_plain hr (opens?_of_role (by simp [hrole]))]
    simp only [visitIdentifier, hrole, Option.bind_some]
    split
    · simp [Resolution.unresolved]
    · unfold bindUse
      simp only
      split
      next id hid => simp [hid, addOccurrence, referenceAt, Resolution.unresolved]
      next hid => simp [hid, unresolvedAt, Resolution.unresolved, Finding.unresolved?]

theorem mem_references_succ (ht : t.IsProgram) (hk : k < t.size) {o : Occurrence}
    (ho : o.kind = .reference) : o ∈ (upTo t (k + 1)).occurrences.toList ↔
      o ∈ (upTo t k).occurrences.toList ∨ o.node = k ∧ ∃ stack target, UseAt t k stack target ∧
        (upTo t k).find? stack (t.text k) target = some o.symbol ∧
        o = referenceAt t k stack o.symbol := by
  rw [upTo_succ]
  by_cases huse : ∃ target, t.role k = .uses target
  · obtain ⟨target, hrole⟩ := huse
    rw [(visit_of_uses hrole).1, List.mem_append]
    refine or_congr_right ?_
    simp only [Option.mem_toList, Option.bind_eq_some_iff, Option.ite_none_left_eq_some,
      Option.map_eq_some_iff]
    constructor
    · rintro ⟨stack, hr, hnew, id, hf, rfl⟩
      exact ⟨rfl, stack, target, ⟨hk, hrole, hr, by simpa using hnew⟩, hf, rfl⟩
    · rintro ⟨-, stack, target', ⟨-, hrole', hr, hnew⟩, hf, he⟩
      obtain rfl : target = target' := by simpa [hrole] using hrole'
      exact ⟨stack, hr, by simp [hnew], _, hf, he.symm⟩
  · have hno : ∀ target, t.role k ≠ .uses target := fun target h => huse ⟨target, h⟩
    rw [(visit_of_not_uses ht hk (framed_upTo ht (Nat.le_of_lt hk)) hno).1 o ho]
    refine (or_iff_left ?_).symm
    rintro ⟨-, _, target, ⟨-, hrole, -⟩, -⟩
    exact hno target hrole

theorem mem_unresolved_succ (ht : t.IsProgram) (hk : k < t.size) {x : UnresolvedUse} :
    x ∈ (upTo t (k + 1)).unresolved ↔
      x ∈ (upTo t k).unresolved ∨ x.node = k ∧ ∃ stack target, UseAt t k stack target ∧
        (upTo t k).find? stack (t.text k) target = none ∧ x = unresolvedAt t k stack target := by
  rw [upTo_succ]
  by_cases huse : ∃ target, t.role k = .uses target
  · obtain ⟨target, hrole⟩ := huse
    rw [(visit_of_uses hrole).2, List.mem_append]
    refine or_congr_right ?_
    simp only [Option.mem_toList, Option.bind_eq_some_iff, Option.ite_none_left_eq_some]
    constructor
    · rintro ⟨stack, hr, hnew, hf, hx⟩
      obtain rfl := Option.some.inj hx
      exact ⟨rfl, stack, target, ⟨hk, hrole, hr, by simpa using hnew⟩, by simpa using hf, rfl⟩
    · rintro ⟨-, stack, target', ⟨-, hrole', hr, hnew⟩, hf, rfl⟩
      obtain rfl : target = target' := by simpa [hrole] using hrole'
      exact ⟨stack, hr, by simp [hnew], by simp [hf], rfl⟩
  · have hno : ∀ target, t.role k ≠ .uses target := fun target h => huse ⟨target, h⟩
    rw [(visit_of_not_uses ht hk (framed_upTo ht (Nat.le_of_lt hk)) hno).2]
    refine (or_iff_left ?_).symm
    rintro ⟨-, _, target, ⟨-, hrole, -⟩, -⟩
    exact hno target hrole

theorem mem_references_iff (ht : t.IsProgram) (hk : k ≤ t.size) {o : Occurrence}
    (ho : o.kind = .reference) : o ∈ (upTo t k).occurrences.toList ↔
      o.node < k ∧ ∃ stack target, UseAt t o.node stack target ∧
        (upTo t o.node).find? stack (t.text o.node) target = some o.symbol ∧
        o = referenceAt t o.node stack o.symbol := by
  induction k with
  | zero => simp [upTo_zero]
  | succ k ih =>
    rw [mem_references_succ ht (by omega) ho, ih (by omega), Nat.lt_succ_iff_lt_or_eq, or_and_right]
    refine or_congr_right (and_congr_right fun he => ?_)
    subst he
    rfl

theorem mem_unresolved_iff (ht : t.IsProgram) (hk : k ≤ t.size) {x : UnresolvedUse} :
    x ∈ (upTo t k).unresolved ↔
      x.node < k ∧ ∃ stack target, UseAt t x.node stack target ∧
        (upTo t x.node).find? stack (t.text x.node) target = none ∧
        x = unresolvedAt t x.node stack target := by
  induction k with
  | zero => simp [upTo_zero, Resolution.unresolved]
  | succ k ih =>
    rw [mem_unresolved_succ ht (by omega), ih (by omega), Nat.lt_succ_iff_lt_or_eq, or_and_right]
    refine or_congr_right (and_congr_right fun he => ?_)
    subst he
    rfl

theorem UseAt.agrees (hu : UseAt t u stack target) (ht : t.IsProgram) :
    (upTo t u).Agrees ((upTo t u).find? stack (t.text u) target)
      ((Outline.upTo t u).find? t stack (t.text u) target) := by
  rw [← outline_upTo ht (Nat.le_of_lt hu.lt)]
  exact (keyed_upTo ht (Nat.le_of_lt hu.lt)).find? _ _

/-- The outline shows the first declaration of the symbol that a use finds. -/
theorem UseAt.find?_outline (hu : UseAt t u stack target) (ht : t.IsProgram) {id : SymbolId}
    (hf : (upTo t u).find? stack (t.text u) target = some id) :
    (Outline.upTo t u).find? t stack (t.text u) target = (upTo t t.size).nameNode? id := by
  have hle := Nat.le_of_lt hu.lt
  have hsound := sound_upTo ht hle
  obtain ⟨x, hx, hfirst⟩ := agrees_some_iff.mp (hf ▸ hu.agrees ht)
  obtain ⟨s, hs, -⟩ := hsound.find? hf
  rw [hx, hsound.nameNode?_eq (upTo_extends ht hle (Nat.le_refl _)).occurrences hs, hfirst]

theorem UseAt.exists_reference (hu : UseAt t u stack target) (ht : t.IsProgram) {x : NodeId}
    (hx : (Outline.upTo t u).find? t stack (t.text u) target = some x) :
    ∃ o ∈ (upTo t t.size).occurrences.toList, o.kind = .reference ∧ o.node = u ∧
      (upTo t t.size).nameNode? o.symbol = some x := by
  have hagree := (hu.agrees ht).isSome_eq
  rw [hx] at hagree
  obtain ⟨id, hf⟩ := Option.isSome_iff_exists.mp hagree
  refine ⟨referenceAt t u stack id, ?_, rfl, rfl, (hu.find?_outline ht hf).symm.trans hx⟩
  exact (mem_references_iff ht (Nat.le_refl _) rfl).mpr ⟨hu.lt, stack, target, hu, hf, rfl⟩

theorem UseAt.exists_unresolved (hu : UseAt t u stack target) (ht : t.IsProgram)
    (hx : (Outline.upTo t u).find? t stack (t.text u) target = none) :
    ∃ y ∈ (upTo t t.size).unresolved, y.node = u := by
  have hagree := (hu.agrees ht).isSome_eq
  rw [hx] at hagree
  have hnone : (upTo t u).find? stack (t.text u) target = none := by simpa using hagree
  refine ⟨unresolvedAt t u stack target, ?_, rfl⟩
  exact (mem_unresolved_iff ht (Nat.le_refl _)).mpr
    ⟨hu.lt, stack, target, hu, hnone, rfl⟩

end Walk

end JavaRefactor
