import JavaRefactor.Proofs.Finalize

/-! # Conflicts of a plan

An edit is compared with its neighbours only, yet no conflict between two edits is missed, and
none is made up. The order in which edits were added has no influence on what is found, nor on the
plan that is left if nothing is found.
-/

namespace JavaRefactor.EditPlan

variable {plan other : EditPlan} {edits edits' : List TextEdit} {c : EditConflict} {s t : Span}
  {found : List EditConflict}

/-! ### No conflict is made up -/

/-- What stands in the way of a plan: an edit that does not lie in the text, or two of its edits
that begin together or reach into each other. -/
inductive Obstructs (plan : EditPlan) : EditConflict → Prop where
  | outOfBounds {e : TextEdit} (mem : e ∈ plan.edits)
      (outside : ¬ (e.span.start ≤ e.span.stop ∧ e.span.stop ≤ plan.sourceLength)) :
      Obstructs plan (.outOfBounds e.span plan.sourceLength)
  | overlapping {d e : TextEdit} {others : List TextEdit}
      (two : plan.edits.Perm (d :: e :: others)) (clash : ¬ d.span.Compatible e.span) :
      Obstructs plan (.overlapping d.span e.span)

theorem exists_neighbours : ∀ {l : List Span}, c ∈ neighbourConflicts l →
    ∃ before s t after, l = before ++ s :: t :: after ∧ ¬ s.Compatible t ∧ c = .overlapping s t
  | [], h => by simp [neighbourConflicts] at h
  | [_], h => by simp [neighbourConflicts] at h
  | s :: t :: l, h => by
      have later (h : c ∈ neighbourConflicts (t :: l)) : ∃ before s' t' after,
          s :: t :: l = before ++ s' :: t' :: after ∧ ¬ s'.Compatible t' ∧
            c = .overlapping s' t' := by
        obtain ⟨before, s', t', after, hl, hc⟩ := exists_neighbours h
        exact ⟨s :: before, s', t', after, by rw [hl]; rfl, hc⟩
      rw [neighbourConflicts] at h
      split at h
      next hmeet =>
        rcases List.mem_cons.mp h with rfl | h
        · have hclash : ¬ s.Compatible t := by
            intro hst
            simp [meet_eq_false_iff.mpr hst] at hmeet
          exact ⟨[], s, t, l, rfl, hclash, rfl⟩
        · exact later h
      next => exact later h

theorem exists_two_edits {rest : List Span} (h : (edits.map (·.span)).Perm (s :: t :: rest)) :
    ∃ d e others, edits.Perm (d :: e :: others) ∧ d.span = s ∧ e.span = t := by
  have hs : s ∈ edits.map (·.span) := h.mem_iff.mpr List.mem_cons_self
  obtain ⟨d, hd, rfl⟩ := List.mem_map.mp hs
  have hfirst := List.perm_cons_erase hd
  have hrest : ((edits.erase d).map (·.span)).Perm (t :: rest) :=
    ((hfirst.map (·.span)).symm.trans h).cons_inv
  obtain ⟨e, he, rfl⟩ := List.mem_map.mp (hrest.mem_iff.mpr List.mem_cons_self)
  exact ⟨d, e, _, hfirst.trans ((List.perm_cons_erase he).cons d), rfl, rfl⟩

theorem obstructs_of_mem_conflicts (h : c ∈ plan.conflicts) : plan.Obstructs c := by
  rcases List.mem_append.mp h with h | h
  · obtain ⟨s, hs, rfl⟩ := List.mem_map.mp h
    obtain ⟨hmem, hout⟩ := List.mem_filter.mp hs
    obtain ⟨e, he, rfl⟩ := List.mem_map.mp hmem
    rw [inBounds, Bool.not_eq_true', Bool.and_eq_false_iff, decide_eq_false_iff_not,
      decide_eq_false_iff_not, ← not_and_or] at hout
    exact .outOfBounds he hout
  · obtain ⟨before, s, t, after, hsorted, hclash, rfl⟩ := exists_neighbours h
    have hperm : (plan.edits.map (·.span)).Perm (s :: t :: (before ++ after)) :=
      calc (plan.edits.map (·.span)).Perm (before ++ s :: t :: after) :=
            hsorted ▸ (sortBy_perm Span.le _).symm
        _ |>.Perm (s :: (before ++ t :: after)) := List.perm_middle
        _ |>.Perm (s :: t :: (before ++ after)) := List.perm_middle.cons s
    obtain ⟨d, e, others, htwo, rfl, rfl⟩ := exists_two_edits hperm
    exact .overlapping htwo hclash

/-! ### No conflict is missed -/

theorem pairwise_compatible_iff : edits.Pairwise (fun d e => d.span.Compatible e.span) ↔
    ∀ (i j : Nat) (d e : TextEdit), edits[i]? = some d → edits[j]? = some e → i ≠ j →
      d.span.Compatible e.span := by
  rw [List.pairwise_iff_getElem]
  constructor
  · intro h i j d e hd he hne
    obtain ⟨hi, rfl⟩ := List.getElem?_eq_some_iff.mp hd
    obtain ⟨hj, rfl⟩ := List.getElem?_eq_some_iff.mp he
    rcases Nat.lt_or_gt_of_ne hne with hlt | hlt
    · exact h i j hi hj hlt
    · exact (h j i hj hi hlt).symm
  · intro h i j hi hj hlt
    exact h i j _ _ (List.getElem?_eq_getElem hi) (List.getElem?_eq_getElem hj) (Nat.ne_of_lt hlt)

/-- Comparing neighbours finds every conflict: nothing is reported just if all edits lie in the
text and any two of them begin apart and end before the other begins. What is reported is true. -/
theorem conflicts_complete (plan : EditPlan) :
    (plan.conflicts = [] ↔
      (∀ e ∈ plan.edits, e.span.start ≤ e.span.stop ∧ e.span.stop ≤ plan.sourceLength) ∧
      ∀ (i j : Nat) (d e : TextEdit), plan.edits[i]? = some d → plan.edits[j]? = some e → i ≠ j →
        d.span.start ≠ e.span.start ∧
          (d.span.stop ≤ e.span.start ∨ e.span.stop ≤ d.span.start)) ∧
    ∀ c ∈ plan.conflicts, plan.Obstructs c := by
  have hpairs (d e : TextEdit) : (d.span.start ≠ e.span.start ∧
      (d.span.stop ≤ e.span.start ∨ e.span.stop ≤ d.span.start)) ↔ d.span.Compatible e.span :=
    and_comm
  refine ⟨?_, fun c hc => obstructs_of_mem_conflicts hc⟩
  simp only [hpairs, ← pairwise_compatible_iff]
  rw [conflicts_eq_nil_iff]
  constructor
  · rintro ⟨hbounds, hcompatible⟩
    exact ⟨hbounds, hcompatible⟩
  · rintro ⟨hbounds, hcompatible⟩
    exact ⟨hbounds, hcompatible⟩

/-- The first and the last of these edits meet, and neither is next to the other in the list. -/
theorem conflicts_complete_sample :
    let plan : EditPlan := { ofSource "int abc;" with
      edits := [⟨⟨4, 7⟩, "x"⟩, ⟨⟨0, 3⟩, "long"⟩, ⟨⟨5, 6⟩, "y"⟩] }
    EditConflict.overlapping ⟨4, 7⟩ ⟨5, 6⟩ ∈ plan.conflicts ∧
      plan.Obstructs (.overlapping ⟨4, 7⟩ ⟨5, 6⟩) := by
  intro plan
  have hmem : EditConflict.overlapping ⟨4, 7⟩ ⟨5, 6⟩ ∈ plan.conflicts := by decide
  exact ⟨hmem, (conflicts_complete plan).2 _ hmem⟩

/-! ### The order of the edits -/

theorem sortBy_perm_sortBy (le : TextEdit → TextEdit → Bool) (h : edits.Perm edits') :
    (sortBy le edits).Perm (sortBy le edits') :=
  (sortBy_perm le edits).trans (h.trans (sortBy_perm le edits').symm)

/-- Sorted edits show the same spans, whatever the order they stood in. Edits of one span may
change places. -/
theorem map_span_sortBy (h : edits.Perm edits') :
    (sortBy (fun a b => b.span.le a.span) edits).map (·.span) =
      (sortBy (fun a b => b.span.le a.span) edits').map (·.span) := by
  have hdescending (l : List TextEdit) :
      ((sortBy (fun a b => b.span.le a.span) l).map (·.span)).Pairwise fun s t => t.le s :=
    List.pairwise_map.mpr (pairwise_sortBy (fun a b => Span.le_total b.span a.span)
      (fun a b c hab hbc => Span.le_trans c.span b.span a.span hbc hab) l)
  have hperm := sortBy_perm_sortBy (fun a b => b.span.le a.span) h
  apply (hperm.map (·.span)).eq_of_pairwise _ (hdescending edits) (hdescending edits')
  intro s t _ _ hts hst
  exact Span.le_antisymm s t hst hts

theorem conflicts_congr (hlength : plan.sourceLength = other.sourceLength)
    (hspans : plan.edits.map (·.span) = other.edits.map (·.span)) :
    plan.conflicts = other.conflicts := by
  simp only [conflicts, hlength, hspans]

/-- Edits without conflicts are told apart by where they begin, so sorting leaves no choice. -/
theorem Clear.sortBy_eq {length : Nat} (hclear : Clear length edits) (h : edits.Perm edits') :
    sortBy (fun a b => b.span.le a.span) edits = sortBy (fun a b => b.span.le a.span) edits' := by
  have hdescending := pairwise_sortBy_descending hclear.compatible
  have hdescending' := pairwise_sortBy_descending (hclear.perm h.symm).compatible
  have hperm := sortBy_perm_sortBy (fun a b => b.span.le a.span) h
  apply hperm.eq_of_pairwise _ hdescending hdescending'
  intro d e _ _ hed hde
  exact absurd hed (Nat.lt_asymm hde)

theorem finalize_eq_error_iff : plan.finalize = .error found ↔
    plan.sortEdits.conflicts = found ∧ found ≠ [] := by
  unfold finalize
  simp only
  split
  next hnil =>
    constructor
    · rintro ⟨⟩
    · rintro ⟨hfound, hne⟩
      exact absurd (hfound.symm.trans hnil) hne
  next hne =>
    constructor
    · rintro ⟨⟩
      exact ⟨rfl, hne⟩
    · rintro ⟨hfound, -⟩
      rw [hfound]

/-- Finalizing does not depend on the order in which edits were added: two plans for one text with
the same edits give the same plan, marked valid, or the same conflicts in the same order. -/
theorem finalize_eq_of_perm (plan other : EditPlan) (hhash : plan.sourceHash = other.sourceHash)
    (hlength : plan.sourceLength = other.sourceLength) (hlabels : plan.labels = other.labels)
    (hperm : plan.edits.Perm other.edits) :
    plan.finalize = other.finalize ∧
      ((∃ checked, plan.finalize = .ok checked ∧ other.finalize = .ok checked ∧
          checked.valid = true) ∨
        ∃ found, plan.finalize = .error found ∧ other.finalize = .error found ∧ found ≠ []) := by
  cases hplan : plan.finalize with
  | ok checked =>
    obtain ⟨hclear, rfl⟩ := finalize_eq_ok_iff.mp hplan
    have hother : other.finalize = .ok { plan.sortEdits with valid := true } := by
      apply finalize_eq_ok_iff.mpr
      refine ⟨hlength ▸ hclear.perm hperm.symm, ?_⟩
      simp only [sortEdits, hhash, hlength, hlabels, hclear.sortBy_eq hperm]
    exact ⟨hother.symm, Or.inl ⟨_, rfl, hother, rfl⟩⟩
  | error found =>
    obtain ⟨hfound, hne⟩ := finalize_eq_error_iff.mp hplan
    have hsame : plan.sortEdits.conflicts = other.sortEdits.conflicts :=
      conflicts_congr hlength (map_span_sortBy hperm)
    have hother : other.finalize = .error found :=
      finalize_eq_error_iff.mpr ⟨hsame.symm.trans hfound, hne⟩
    exact ⟨hother.symm, Or.inr ⟨found, rfl, hother, hne⟩⟩

/-- Two edits of one span with different texts, added in either order, are refused alike. -/
theorem finalize_eq_of_perm_sample :
    let plan : EditPlan := ((ofSource "int a;").push ⟨⟨4, 5⟩, "b"⟩).push ⟨⟨4, 5⟩, "c"⟩
    let other : EditPlan := ((ofSource "int a;").push ⟨⟨4, 5⟩, "c"⟩).push ⟨⟨4, 5⟩, "b"⟩
    plan.edits.Perm other.edits ∧ plan.edits ≠ other.edits ∧ plan.finalize = other.finalize := by
  intro plan other
  have hperm : plan.edits.Perm other.edits := List.Perm.swap _ _ []
  exact ⟨hperm, by decide, (finalize_eq_of_perm plan other rfl rfl rfl hperm).1⟩

end JavaRefactor.EditPlan
