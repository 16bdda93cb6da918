import JavaRefactor.Proofs.Finalize

/-! # Valid plans are up to date

Only finalizing marks a plan valid, and only adding an edit takes the mark away. Whatever was done
to a plan, as long as it is marked valid its edits are those that were added, within the text,
apart from each other and in descending order.
-/

namespace JavaRefactor.EditPlan

inductive Operation where
  | push (edit : TextEdit)
  | withLabels (labels : EditLabels)
  | sortEdits
  | finalize
  deriving DecidableEq, Repr

namespace Operation

/-- The plan after an operation. A plan that cannot be finalized stays as it was. -/
def perform (plan : EditPlan) : Operation → EditPlan
  | push edit => plan.push edit
  | withLabels labels => plan.withLabels labels
  | sortEdits => plan.sortEdits
  | finalize => plan.finalize.toOption.getD plan

def edit? : Operation → Option TextEdit
  | push edit => some edit
  | withLabels _ | sortEdits | finalize => none

end Operation

def after (source : String) (history : List Operation) : EditPlan :=
  history.foldl Operation.perform (ofSource source)

def added (history : List Operation) : List TextEdit := history.filterMap Operation.edit?

variable {source : String} {plan : EditPlan} {edits : List TextEdit} {op : Operation}
  {history : List Operation}

/-- The edits lie in the text, each ends before the one that stands before it in the list begins,
and no two begin together. -/
structure Settled (length : Nat) (edits : List TextEdit) : Prop where
  bounds : ∀ e ∈ edits, e.span.start ≤ e.span.stop ∧ e.span.stop ≤ length
  apart : edits.Pairwise fun d e => e.span.stop ≤ d.span.start
  descending : edits.Pairwise fun d e => e.span.start < d.span.start

theorem Settled.clear {length : Nat} (h : Settled length edits) : Clear length edits where
  bounds := h.bounds
  compatible := (h.apart.and h.descending).imp fun ⟨hstop, hstart⟩ =>
    ⟨Or.inr hstop, Nat.ne_of_gt hstart⟩

theorem Clear.settled {length : Nat} (h : Clear length edits) :
    Settled length (sortBy (fun a b => b.span.le a.span) edits) := by
  have hclear := h.perm (sortBy_perm (fun a b => b.span.le a.span) edits)
  have hdesc := pairwise_sortBy_descending h.compatible
  refine ⟨hclear.bounds, ?_, hdesc⟩
  apply (hclear.compatible.and hdesc).imp_of_mem
  rintro d e hd he ⟨⟨hstop | hstop, -⟩, hlt⟩
  · have := (hclear.bounds d hd).1
    omega
  · exact hstop

/-- The plan is for a text, holds the edits that were added, and is settled if it is marked
valid. -/
structure UpToDate (source : String) (edits : List TextEdit) (plan : EditPlan) : Prop where
  length : plan.sourceLength = Text.byteLength source
  complete : plan.edits.Perm edits
  settled : plan.valid = true → Settled (Text.byteLength source) plan.edits

theorem upToDate_ofSource (source : String) : UpToDate source [] (ofSource source) where
  length := rfl
  complete := .refl []
  settled h := by cases h

theorem UpToDate.perform (h : UpToDate source edits plan) (op : Operation) :
    UpToDate source (edits ++ op.edit?.toList) (op.perform plan) := by
  have hnone : edits ++ (none : Option TextEdit).toList = edits := List.append_nil edits
  cases op with
  | push edit =>
    refine ⟨h.length, h.complete.append_right [edit], ?_⟩
    rintro ⟨⟩
  | withLabels labels => exact ⟨h.length, hnone.symm ▸ h.complete, h.settled⟩
  | sortEdits =>
    have hperm := (perm_sortEdits plan).trans h.complete
    exact ⟨h.length, hnone.symm ▸ hperm, fun hv => (h.settled hv).clear.settled⟩
  | finalize =>
    rw [Operation.perform, Operation.edit?, hnone]
    cases hf : plan.finalize with
    | error found => exact h
    | ok checked =>
      obtain ⟨hclear, rfl⟩ := finalize_eq_ok_iff.mp hf
      exact ⟨h.length, (perm_sortEdits plan).trans h.complete, fun _ => h.length ▸ hclear.settled⟩

theorem upToDate_after (source : String) (history : List Operation) :
    UpToDate source (added history) (after source history) := by
  induction history using List.reverseRecOn with
  | nil => exact upToDate_ofSource source
  | append_singleton history op ih =>
    have hadded : added (history ++ [op]) = added history ++ op.edit?.toList := by
      cases h : op.edit? <;> simp [added, h]
    rw [after, List.foldl_append, hadded]
    exact ih.perform op

/-- Finalizing marks a plan valid just if the edits that were added have no conflicts. -/
theorem valid_finalize_iff (h : UpToDate source edits plan) :
    (Operation.finalize.perform plan).valid = true ↔ Clear (Text.byteLength source) edits := by
  have hclear : Clear plan.sourceLength plan.edits ↔ Clear (Text.byteLength source) edits := by
    rw [h.length]
    exact ⟨fun hc => hc.perm h.complete.symm, fun hc => hc.perm h.complete⟩
  rw [← hclear, Operation.perform]
  cases hf : plan.finalize with
  | ok checked =>
    obtain ⟨hc, rfl⟩ := finalize_eq_ok_iff.mp hf
    exact iff_of_true rfl hc
  | error found =>
    have hnot : ¬ Clear plan.sourceLength plan.edits := by
      intro hc
      simp [finalize_eq_ok_iff.mpr ⟨hc, rfl⟩] at hf
    -- a plan that is still marked valid would have been finalized again
    refine iff_of_false (fun hv => hnot ?_) hnot
    exact h.length ▸ (h.settled hv).clear

/-- Validity is never stale. After any operations on a new plan, the mark means that the edits of
the plan are those that were added, in bounds, apart and in descending order. The mark is there
after finalizing, just if the edits that were added allow it. -/
theorem valid_never_stale (source : String) (history : List Operation) :
    ((after source history).valid = true →
      (after source history).edits.Pairwise (fun d e => e.span.start < d.span.start) ∧
      (∀ e ∈ (after source history).edits, e.span.start ≤ e.span.stop ∧
        e.span.stop ≤ (after source history).sourceLength) ∧
      (after source history).edits.Pairwise (fun d e => d.span.Apart e.span) ∧
      (after source history).edits.Perm (added history)) ∧
    (after source history).sourceLength = Text.byteLength source ∧
    ((after source (history ++ [.finalize])).valid = true ↔
      Clear (Text.byteLength source) (added history)) := by
  have h := upToDate_after source history
  refine ⟨fun hv => ?_, h.length, ?_⟩
  · have hs := h.settled hv
    exact ⟨hs.descending, h.length ▸ hs.bounds, hs.apart.imp Or.inr, h.complete⟩
  · rw [after, List.foldl_append]
    exact valid_finalize_iff h

/-- A plan that is finalized, added to and finalized again. -/
theorem valid_never_stale_sample :
    let history : List Operation := [.push ⟨⟨0, 3⟩, "long"⟩, .finalize, .push ⟨⟨4, 5⟩, "b"⟩,
      .withLabels { operation := some "rename" }, .finalize, .sortEdits]
    (after "int a;" history).valid = true ∧
      (after "int a;" history).edits.Pairwise (fun d e => e.span.start < d.span.start) ∧
      (after "int a;" history).edits.Perm [⟨⟨0, 3⟩, "long"⟩, ⟨⟨4, 5⟩, "b"⟩] := by
  intro history
  have hvalid : (after "int a;" history).valid = true := by decide +kernel
  obtain ⟨hdescending, -, -, hperm⟩ := (valid_never_stale "int a;" history).1 hvalid
  exact ⟨hvalid, hdescending, hperm⟩

end JavaRefactor.EditPlan
