import Mathlib.Data.List.Perm.Basic
import JavaRefactor.Proofs.Frames
import JavaRefactor.Proofs.NamePosition
import JavaRefactor.Proofs.Surroundings

/-! # Every name is accounted for once

A visit settles its node: what is recorded about an identifier is recorded by the time the
identifier has been visited, and no later visit adds to it. So an identifier is an occurrence of
one symbol, or is reported once as unresolved, or stands where names do not count.
-/

namespace JavaRefactor

namespace Resolution

def namings (r : Resolution) : List Occurrence :=
  r.symbols.toList.flatMap fun s => r.occurrencesOf s.id

def occurrencesAt (r : Resolution) (u : NodeId) : List Occurrence :=
  r.occurrences.toList.filter fun o => o.node == u

def reportsAt (r : Resolution) (u : NodeId) : List UnresolvedUse :=
  r.unresolved.filter fun x => x.node == u

/-- How often an identifier is recorded, as an occurrence of a symbol or as unresolved. -/
def timesRecorded (r : Resolution) (u : NodeId) : Nat :=
  (r.namings.filter fun o => o.node == u).length + (r.reportsAt u).length

variable {r : Resolution} {u : NodeId} {o : Occurrence}

theorem mem_occurrencesAt : o ∈ r.occurrencesAt u ↔ o ∈ r.occurrences.toList ∧ o.node = u := by
  simp [occurrencesAt]

end Resolution

namespace Walk

variable {t : Tree} {v : Trail} {u i k : Nat} {stack : List ScopeId} {target : Target}

theorem visit_occurrencesAt (ht : t.IsProgram) (hi : i < t.size) (hv : Framed i v) (hu : u < i) :
    (visit t v i).occurrencesAt u = v.occurrencesAt u := by
  have push {l : List Occurrence} {o : Occurrence} (ho : i ≤ o.node) :
      (l ++ [o]).filter (fun o => o.node == u) = l.filter fun o => o.node == u := by
    have hne : o.node ≠ u := by lia
    simp [hne]
  refine visit_preserves (P := fun w => w.occurrencesAt u = v.occurrencesAt u) ht hi hv
    (fun _ _ _ h => h) (fun _ _ _ _ h => h) ?_ ?_ rfl
  · intro w₁ w₂ stack d hd hd' h
    obtain ⟨id, hocc, -⟩ := hd'.occurrences_eq
    rw [← h, Resolution.occurrencesAt, hocc, Array.toList_push]
    apply push
    rcases hd.makes.name_le ht.toInPreorder with he | ⟨hlt, -⟩
    · exact Nat.le_of_eq he.symm
    · exact Nat.le_of_lt hlt
  · intro w₁ o hr h
    rw [← h, Resolution.occurrencesAt, recorded, addOccurrence, Array.toList_push]
    apply push
    cases hr with
    | reference => exact Nat.le_refl _
    | constructor _ child => exact Nat.le_of_lt (ht.parent_lt (ht.parent_of_childByField? child))

theorem occurrencesAt_upTo (ht : t.IsProgram) (hu : u < k) (hk : k ≤ t.size) :
    (upTo t k).occurrencesAt u = (upTo t (u + 1)).occurrencesAt u := by
  induction hu with
  | refl => rfl
  | @step m hm ih =>
    rw [upTo_succ, visit_occurrencesAt ht (by lia) (framed_upTo ht (by lia)) hm, ih (by lia)]

theorem visit_reportsAt (ht : t.IsProgram) (hi : i < t.size) (hv : Framed i v) (hu : u ≠ i) :
    (visit t v i).reportsAt u = v.reportsAt u := by
  by_cases huse : ∃ target, t.role i = .uses target
  · obtain ⟨target, hrole⟩ := huse
    rw [Resolution.reportsAt, (visit_of_uses hrole).2, List.filter_append, ← Resolution.reportsAt]
    refine List.append_right_eq_self.mpr (List.filter_eq_nil_iff.mpr fun x hx => ?_)
    obtain ⟨stack, -, hx⟩ := Option.bind_eq_some_iff.mp (Option.mem_toList.mp hx)
    obtain ⟨-, -, hx⟩ : ¬ _ ∧ ¬ _ ∧ _ := by simpa only [Option.ite_none_left_eq_some] using hx
    obtain rfl := Option.some.inj hx
    simpa [unresolvedAt] using hu.symm
  · rw [Resolution.reportsAt, (visit_of_not_uses ht hi hv fun target h => huse ⟨target, h⟩).2]
    rfl

theorem reportsAt_of_le (ht : t.IsProgram) (hk : k ≤ u) (hu : u < t.size) :
    (upTo t k).reportsAt u = [] := by
  refine List.filter_eq_nil_iff.mpr fun x hx he => ?_
  have hlt := ((mem_unresolved_iff ht (by lia)).mp hx).1
  rw [beq_iff_eq.mp he] at hlt
  lia

theorem reportsAt_upTo (ht : t.IsProgram) (hu : u < k) (hk : k ≤ t.size) :
    (upTo t k).reportsAt u = (upTo t (u + 1)).reportsAt u := by
  induction hu with
  | refl => rfl
  | @step m hm ih =>
    rw [upTo_succ, visit_reportsAt ht (by lia) (framed_upTo ht (by lia)) (Nat.ne_of_lt hm),
      ih (by lia)]

theorem UseAt.recorded (hu : UseAt t u stack target) (ht : t.IsProgram) :
    (upTo t t.size).occurrencesAt u =
      (((upTo t u).find? stack (t.text u) target).map (referenceAt t u stack)).toList ∧
    (upTo t t.size).reportsAt u =
      if ((upTo t u).find? stack (t.text u) target).isSome then []
      else [unresolvedAt t u stack target] := by
  obtain ⟨hocc, hrep⟩ := visit_of_uses (v := upTo t u) hu.role
  have hnone : (upTo t u).occurrencesAt u = [] := by
    refine List.filter_eq_nil_iff.mpr fun o ho => ?_
    simpa using hu.node_ne ht ho
  rw [occurrencesAt_upTo ht hu.lt (Nat.le_refl _), reportsAt_upTo ht hu.lt (Nat.le_refl _),
    upTo_succ]
  constructor
  · rw [Resolution.occurrencesAt, hocc, List.filter_append, ← Resolution.occurrencesAt, hnone]
    cases hf : (upTo t u).find? stack (t.text u) target <;>
      simp [hu.reached, hu.new, hf, referenceAt]
  · rw [Resolution.reportsAt, hrep, List.filter_append, ← Resolution.reportsAt,
      reportsAt_of_le ht (Nat.le_refl _) hu.lt]
    cases hf : (upTo t u).find? stack (t.text u) target <;>
      simp [hu.reached, hu.new, hf, unresolvedAt]

theorem reportsAt_eq_nil (ht : t.IsProgram) (h : ∀ stack target, ¬ UseAt t u stack target) :
    (upTo t t.size).reportsAt u = [] := by
  refine List.filter_eq_nil_iff.mpr fun x hx he => ?_
  obtain ⟨-, stack, target, hu, -⟩ := (mem_unresolved_iff ht (Nat.le_refl _)).mp hx
  exact h stack target (beq_iff_eq.mp he ▸ hu)

theorem length_occurrencesAt_le (ht : t.IsProgram) (hb : t.TypesHaveBodies) (u : NodeId) :
    ((upTo t t.size).occurrencesAt u).length ≤ 1 := by
  have hnodup : (((upTo t t.size).occurrencesAt u).map (·.node)).Nodup :=
    (nodup_occurrences ht hb (Nat.le_refl _)).sublist (List.filter_sublist.map _)
  have hall : ((upTo t t.size).occurrencesAt u).map (·.node) =
      List.replicate ((upTo t t.size).occurrencesAt u).length u := by
    rw [List.eq_replicate_iff]
    refine ⟨by simp, fun x hx => ?_⟩
    obtain ⟨o, ho, rfl⟩ := List.mem_map.mp hx
    exact (Resolution.mem_occurrencesAt.mp ho).2
  rw [hall] at hnodup
  exact List.nodup_replicate.mp hnodup

/-- The walk leaves no name unsettled that it comes to, unless names do not count there. -/
theorem exists_occurrence_or_useAt (ht : t.IsProgram) (hu : t.IsReached u)
    (hrole : t.role u ≠ .ignored) :
    (∃ o ∈ (upTo t t.size).occurrences.toList, o.node = u) ∨
      ∃ stack target, UseAt t u stack target := by
  have hr := reached?_eq_scopesAround ht hu (Nat.le_refl _) (Nat.le_of_lt hu.1)
  have hmono {k : Nat} (hk : k ≤ t.size) {o : Occurrence} (ho : o ∈ (upTo t k).occurrences.toList) :
      o ∈ (upTo t t.size).occurrences.toList :=
    (upTo_extends ht hk (Nat.le_refl _)).occurrences.subset ho
  cases hset : (upTo t u).isSettled u with
  | true =>
    have hframed := framed_upTo ht (Nat.le_of_lt hu.1)
    obtain ⟨o, ho, hn⟩ := (hframed.isSettled_iff (Nat.le_refl u)).mp hset
    exact Or.inl ⟨o, hmono (Nat.le_of_lt hu.1) ho, hn⟩
  | false =>
    cases hcase : t.role u with
    | ignored => exact absurd hcase hrole
    | uses target => exact Or.inr ⟨_, target, hu.1, hcase, hr, hset⟩
    | declares d =>
      have hstack := (framed_upTo ht (Nat.le_of_lt hu.1)).current_lt ht hu.1 hr fun hk => hrole (by
        simp [Tree.role, hk])
      obtain ⟨id, hocc, -⟩ := (declare_declared (t := t) (d := d) hstack).occurrences_eq
      have hmem : declaredAs t ((upTo t u).scopesAround t u) d id ∈
          (upTo t (u + 1)).occurrences.toList := by
        rw [upTo_succ, visit_of_plain hr (opens?_of_role hrole)]
        simp [visitIdentifier, hset, hcase, hocc]
      exact Or.inl ⟨_, hmono (Nat.succ_le_of_lt hu.1) hmem, Tree.name_of_role hcase⟩

theorem perm_flatMap_filter {α : Type} (key : α → Nat) (l : List α) (n : Nat) :
    ((List.range n).flatMap fun k => l.filter fun a => key a == k).Perm
      (l.filter fun a => key a < n) := by
  induction n with
  | zero => simp
  | succ n ih =>
    rw [List.range_succ, List.flatMap_append]
    refine (ih.append_right _).trans ?_
    have hsplit := List.filter_append_perm (fun a => decide (key a < n))
      (l.filter fun a => key a < n + 1)
    rw [List.filter_filter, List.filter_filter] at hsplit
    refine List.Perm.trans (List.Perm.of_eq ?_) hsplit
    congr 1
    · refine List.filter_congr fun a _ => ?_
      simp
      lia
    · simp only [List.flatMap_cons, List.flatMap_nil, List.append_nil]
      refine List.filter_congr fun a _ => ?_
      rw [Bool.eq_iff_iff]
      simp
      lia

theorem perm_flatMap_of_lt {α : Type} {key : α → Nat} {l : List α} {n : Nat}
    (h : ∀ a ∈ l, key a < n) :
    ((List.range n).flatMap fun k => l.filter fun a => key a == k).Perm l := by
  have hperm := perm_flatMap_filter key l n
  rwa [List.filter_eq_self.mpr fun a ha => decide_eq_true (h a ha)] at hperm

theorem Sound.perm_namings (h : Sound t w) : w.namings.Perm w.occurrences.toList := by
  have hids : w.symbols.toList.map (·.id) = List.range w.symbols.size := by
    apply List.ext_getElem?
    intro k
    rw [List.getElem?_map, Array.getElem?_toList]
    cases hk : w.symbols[k]? with
    | none => simpa using hk
    | some s =>
      have hlt := (Array.getElem?_eq_some_iff.mp hk).1
      simp [h.ids k s hk, hlt]
  have hlt (o : Occurrence) (ho : o ∈ w.occurrences.toList) : o.symbol < w.symbols.size := by
    obtain ⟨s, hs, -⟩ := h.occurs o ho
    exact (Array.getElem?_eq_some_iff.mp hs).1
  have hperm := perm_flatMap_of_lt hlt
  rw [← hids, List.flatMap_map] at hperm
  refine List.Perm.trans ?_ hperm
  exact List.Perm.flatMap_left _ fun s _ => perm_occurrencesOf w.toResolution s.id

theorem timesRecorded_eq (ht : t.IsProgram) (u : NodeId) : (upTo t t.size).timesRecorded u =
    ((upTo t t.size).occurrencesAt u).length + ((upTo t t.size).reportsAt u).length := by
  have hperm := (sound_upTo ht (Nat.le_refl t.size)).perm_namings
  rw [Resolution.timesRecorded, (hperm.filter _).length_eq, Resolution.occurrencesAt]

theorem UseAt.timesRecorded (hu : UseAt t u stack target) (ht : t.IsProgram) :
    (upTo t t.size).timesRecorded u = 1 := by
  obtain ⟨hocc, hrep⟩ := hu.recorded ht
  rw [timesRecorded_eq ht, hocc, hrep]
  cases (upTo t u).find? stack (t.text u) target <;> simp

/-- What is reported as unresolved is recorded in no other way. -/
theorem reportsAt_eq_nil_or (ht : t.IsProgram) (u : NodeId) :
    (upTo t t.size).reportsAt u = [] ∨ (upTo t t.size).timesRecorded u = 1 := by
  by_cases huse : ∃ stack target, UseAt t u stack target
  · obtain ⟨stack, target, hu⟩ := huse
    exact Or.inr (hu.timesRecorded ht)
  · exact Or.inl (reportsAt_eq_nil ht fun stack target h => huse ⟨stack, target, h⟩)

theorem timesRecorded_le (ht : t.IsProgram) (hb : t.TypesHaveBodies) (u : NodeId) :
    (upTo t t.size).timesRecorded u ≤ 1 := by
  rcases reportsAt_eq_nil_or ht u with hrep | hone
  · rw [timesRecorded_eq ht, hrep]
    exact length_occurrencesAt_le ht hb u
  · exact Nat.le_of_eq hone

theorem timesRecorded_ne_zero (ht : t.IsProgram) (hu : t.IsReached u)
    (hrole : t.role u ≠ .ignored) : (upTo t t.size).timesRecorded u ≠ 0 := by
  rcases exists_occurrence_or_useAt ht hu hrole with ⟨o, ho, hn⟩ | ⟨stack, target, huse⟩
  · rw [timesRecorded_eq ht]
    have hpos := List.length_pos_of_mem (Resolution.mem_occurrencesAt.mpr ⟨ho, hn⟩)
    lia
  · simp [huse.timesRecorded ht]

theorem timesRecorded_of_ignored (ht : t.IsProgram) (hrole : t.role u = .ignored)
    (hfree : ∀ o ∈ (upTo t t.size).occurrences.toList, o.node = u → o.kind = .reference) :
    (upTo t t.size).timesRecorded u = 0 := by
  have hocc : (upTo t t.size).occurrencesAt u = [] := by
    refine List.eq_nil_iff_forall_not_mem.mpr fun o hmem => ?_
    obtain ⟨ho, rfl⟩ := Resolution.mem_occurrencesAt.mp hmem
    obtain ⟨-, _, target, huse, -⟩ :=
      (mem_references_iff ht (Nat.le_refl _) (hfree o ho rfl)).mp ho
    simp [huse.role] at hrole
  have hrep : (upTo t t.size).reportsAt u = [] := by
    refine reportsAt_eq_nil ht fun stack target huse => ?_
    simp [huse.role] at hrole
  rw [timesRecorded_eq ht, hocc, hrep]
  rfl

end Walk

/-- An identifier that lies in no error is recorded, unless it stands in a foreign place and
nothing declares it there. What is reported as unresolved is recorded once, and where bodies are
bodies so is every name. -/
theorem names_accounted_once {t : Tree} (ht : t.IsProgram) :
    ∃ r, resolve t = .ok r ∧
      (∀ u, t.IsReached u → t.kind u = .identifier ∨ t.kind u = .typeIdentifier →
        (r.timesRecorded u = 0 ↔
          t.IsForeign u ∧ ∀ o ∈ r.namings, o.node = u → o.kind = .reference)) ∧
      (∀ u, r.reportsAt u = [] ∨ r.timesRecorded u = 1) ∧
      (t.TypesHaveBodies → ∀ u, r.timesRecorded u ≤ 1) := by
  refine ⟨_, resolve_eq_ok ht, fun u hu hk => ?_, Walk.reportsAt_eq_nil_or ht,
    Walk.timesRecorded_le ht⟩
  have hperm := (Walk.sound_upTo ht (Nat.le_refl t.size)).perm_namings
  obtain ⟨p, hp⟩ : ∃ p, t.parent? u = some p := by
    refine ht.exists_parent (Nat.pos_of_ne_zero ?_) hu.1
    rintro rfl
    have hroot : t.kind 0 = .program := ht.program
    simp [hroot] at hk
  constructor
  · intro h0
    constructor
    · by_contra hforeign
      exact Walk.timesRecorded_ne_zero ht hu (mt (Tree.role_eq_ignored_iff hk hp).mp hforeign) h0
    · intro o ho hn
      have hnone := List.length_eq_zero_iff.mp (Nat.eq_zero_of_add_eq_zero_right h0)
      simpa [hn] using List.filter_eq_nil_iff.mp hnone o ho
  · rintro ⟨hforeign, hfree⟩
    exact Walk.timesRecorded_of_ignored ht ((Tree.role_eq_ignored_iff hk hp).mpr hforeign)
      fun o ho => hfree o (hperm.mem_iff.mpr ho)

/-- In the sample the class is named once where it stands as an object, and the method that is
called on it is recorded only if something else than its place names it. -/
theorem names_accounted_once_sample :
    ∃ r, resolve Sample.tree = .ok r ∧ r.timesRecorded 27 ≤ 1 ∧ r.timesRecorded 27 ≠ 0 ∧
      (r.timesRecorded 29 = 0 ↔ ∀ o ∈ r.namings, o.node = 29 → o.kind = .reference) := by
  obtain ⟨r, hr, hiff, -, hle⟩ := names_accounted_once Sample.tree_isProgram
  have hforeign : Sample.tree.IsForeign 29 :=
    .call (p := 26) (by decide +kernel) (by decide +kernel) (by decide +kernel) (by decide +kernel)
      ⟨27, by decide +kernel, by decide +kernel⟩
  refine ⟨r, hr, hle Sample.tree_grammatical.typesHaveBodies 27, fun h0 => ?_, ?_⟩
  · have hp : Sample.tree.parent? 27 = some 26 := by decide +kernel
    have hk : Sample.tree.kind 27 = .identifier := by decide +kernel
    have hrole := (Tree.role_eq_ignored_iff (Or.inl hk) hp).mpr
      ((hiff 27 (by decide +kernel) (Or.inl hk)).mp h0).1
    exact absurd hrole (by decide +kernel)
  · rw [hiff 29 (by decide +kernel) (by decide +kernel)]
    exact and_iff_right hforeign

end JavaRefactor
