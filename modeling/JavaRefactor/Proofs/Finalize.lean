import JavaRefactor.Proofs.Apply

/-! # Finalizing a plan

A plan is finalized just if its edits lie within the text and apart from each other. They then
stand in the plan from the end of the text to its beginning.
-/

namespace JavaRefactor.EditPlan

variable {plan checked : EditPlan}

structure Clear (length : Nat) (edits : List TextEdit) : Prop where
  bounds : ∀ e ∈ edits, e.span.start ≤ e.span.stop ∧ e.span.stop ≤ length
  compatible : edits.Pairwise fun d e => d.span.Compatible e.span

theorem Clear.perm {length : Nat} {edits edits' : List TextEdit} (h : Clear length edits)
    (hp : edits'.Perm edits) : Clear length edits' where
  bounds e he := h.bounds e (hp.mem_iff.mp he)
  compatible := (hp.pairwise_iff Span.Compatible.symm).mpr h.compatible

theorem conflicts_eq_nil_iff : plan.conflicts = [] ↔ Clear plan.sourceLength plan.edits := by
  have hbounds : ((plan.edits.map (·.span)).filter fun s => !inBounds plan.sourceLength s) = [] ↔
      ∀ e ∈ plan.edits, e.span.start ≤ e.span.stop ∧ e.span.stop ≤ plan.sourceLength := by
    simp [List.filter_eq_nil_iff, inBounds]
  have hmeet (hb : ∀ e ∈ plan.edits, e.span.start ≤ e.span.stop ∧ e.span.stop ≤ plan.sourceLength) :
      neighbourConflicts (sortBy Span.le (plan.edits.map (·.span))) = [] ↔
        plan.edits.Pairwise fun d e => d.span.Compatible e.span := by
    rw [neighbourConflicts_eq_nil_iff, isChain_sortBy_iff, List.pairwise_map]
    intro s hs
    obtain ⟨e, he, rfl⟩ := List.mem_map.mp hs
    exact (hb e he).1
  simp only [conflicts]
  rw [List.append_eq_nil_iff, List.map_eq_nil_iff, hbounds]
  constructor
  · rintro ⟨hb, hm⟩
    exact ⟨hb, (hmeet hb).mp hm⟩
  · rintro ⟨hb, hc⟩
    exact ⟨hb, (hmeet hb).mpr hc⟩

theorem perm_sortEdits (plan : EditPlan) : plan.sortEdits.edits.Perm plan.edits :=
  sortBy_perm _ _

theorem finalize_eq_ok_iff : plan.finalize = .ok checked ↔
    Clear plan.sourceLength plan.edits ∧ checked = { plan.sortEdits with valid := true } := by
  have hclear : plan.sortEdits.conflicts = [] ↔ Clear plan.sourceLength plan.edits := by
    rw [conflicts_eq_nil_iff]
    exact ⟨fun h => h.perm (perm_sortEdits plan).symm, fun h => h.perm (perm_sortEdits plan)⟩
  rw [← hclear]
  unfold finalize
  simp only
  split
  next hnil => simp [hnil, eq_comm]
  next found hne => exact iff_of_false (by simp) fun h => hne h.1

theorem pairwise_sortBy_descending {edits : List TextEdit}
    (hc : edits.Pairwise fun d e => d.span.Compatible e.span) :
    (sortBy (fun a b => b.span.le a.span) edits).Pairwise
      fun d e => e.span.start < d.span.start := by
  have hc' := ((sortBy_perm (fun a b => b.span.le a.span) edits).pairwise_iff
    Span.Compatible.symm).mpr hc
  have hs : (sortBy (fun a b => b.span.le a.span) edits).Pairwise fun d e => e.span.le d.span :=
    pairwise_sortBy (fun a b => Span.le_total b.span a.span)
      (fun a b c hab hbc => Span.le_trans c.span b.span a.span hbc hab) edits
  refine (hc'.and hs).imp ?_
  rintro d e ⟨⟨-, hne⟩, hle⟩
  simp only [Span.le, Bool.or_eq_true, decide_eq_true_eq, Bool.and_eq_true, beq_iff_eq] at hle
  omega

end JavaRefactor.EditPlan
