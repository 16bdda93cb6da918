import JavaRefactor.Edit.PlanFile
import JavaRefactor.Proofs.JsonText

/-! # Plans come back from their files

Every field of a plan is found again under the name it was written with, and a label that was
left out is read as missing. Only numbers can be lost: reading takes none that needs more than
64 bits.
-/

namespace JavaRefactor

theorem Json.word64?_nat (n : Nat) :
    word64? (.nat n) = if n < Decimal.word64 then some n else none := rfl

namespace Span

def Representable (s : Span) : Prop := s.start < Decimal.word64 ∧ s.stop < Decimal.word64

instance (s : Span) : Decidable s.Representable := inferInstanceAs (Decidable (_ ∧ _))

theorem ofJson?_toJson (s : Span) :
    ofJson? s.toJson = if s.Representable then some s else none := by
  have hrecord : s.toJson.record? ["start", "end"] 0 =
      some [("start", .nat s.start), ("end", .nat s.stop)] := rfl
  by_cases hstart : s.start < Decimal.word64
  · by_cases hstop : s.stop < Decimal.word64
    · simp [ofJson?, hrecord, Json.required, List.lookup_cons, Json.word64?_nat, Representable,
        hstart, hstop]
    · simp [ofJson?, hrecord, Json.required, List.lookup_cons, Json.word64?_nat, Representable,
        hstart, hstop]
  · simp [ofJson?, hrecord, Json.required, List.lookup_cons, Json.word64?_nat, Representable,
      hstart]

end Span

namespace TextEdit

theorem isPlain_toJson (edit : TextEdit) : edit.toJson.isPlain := rfl

theorem ofJson?_toJson (edit : TextEdit) :
    ofJson? edit.toJson = if edit.span.Representable then some edit else none := by
  have hrecord : edit.toJson.record? ["span", "new_text"] 0 =
      some [("span", edit.span.toJson), ("new_text", .str edit.newText)] := rfl
  by_cases hspan : edit.span.Representable
  · simp [ofJson?, hrecord, Json.required, List.lookup_cons, Span.ofJson?_toJson, hspan, Json.str?]
  · simp [ofJson?, hrecord, Json.required, List.lookup_cons, Span.ofJson?_toJson, hspan]

end TextEdit

namespace EditLabels

theorem isPlain_toJson (labels : EditLabels) : labels.toJson.isPlain := by
  obtain ⟨_ | operation, _ | symbol, _ | reason⟩ := labels
  all_goals rfl

theorem ofJson?_toJson (labels : EditLabels) : ofJson? labels.toJson = some labels := by
  obtain ⟨_ | operation, _ | symbol, _ | reason⟩ := labels
  all_goals rfl

end EditLabels

namespace EditPlan

def Representable (plan : EditPlan) : Prop :=
  plan.sourceLength < Decimal.word64 ∧ ∀ edit ∈ plan.edits, edit.span.Representable

instance (plan : EditPlan) : Decidable plan.Representable := inferInstanceAs (Decidable (_ ∧ _))

theorem list?_toJson (edits : List TextEdit) :
    Json.list? TextEdit.ofJson? (.arr (edits.map TextEdit.toJson)) =
      if ∀ edit ∈ edits, edit.span.Representable then some edits else none := by
  rw [Json.list?]
  induction edits with
  | nil => rfl
  | cons edit edits ih =>
    rw [List.map_cons, List.mapM_cons, TextEdit.ofJson?_toJson, ih]
    simp only [List.forall_mem_cons]
    by_cases hedit : edit.span.Representable
    · by_cases hedits : ∀ e ∈ edits, e.span.Representable
      · rw [if_pos hedit, if_pos hedits, if_pos ⟨hedit, hedits⟩]
        rfl
      · simp [hedit, if_neg hedits]
    · simp [hedit]

theorem ofJson?_toJson (plan : EditPlan) :
    ofJson? plan.toJson = if plan.Representable then some plan else none := by
  have hrecord : plan.toJson.record? ["source_hash", "source_len", "edits", "valid", "labels"] 1 =
      some [("source_hash", .str plan.sourceHash.hex), ("source_len", .nat plan.sourceLength),
        ("edits", .arr (plan.edits.map TextEdit.toJson)), ("valid", .bool plan.valid),
        ("labels", plan.labels.toJson)] := rfl
  by_cases hlength : plan.sourceLength < Decimal.word64
  · by_cases hedits : ∀ edit ∈ plan.edits, edit.span.Representable
    · simp [ofJson?, hrecord, Json.required, List.lookup_cons, Json.str?, Json.word64?_nat, hlength,
        list?_toJson, if_pos hedits, Json.bool?, EditLabels.ofJson?_toJson, Representable]
    · simp [ofJson?, hrecord, Json.required, List.lookup_cons, Json.str?, Json.word64?_nat, hlength,
        list?_toJson, hedits, Representable]
  · simp [ofJson?, hrecord, Json.required, List.lookup_cons, Json.str?, Json.word64?_nat, hlength,
      Representable]

theorem isPlain_toJson (plan : EditPlan) : plan.toJson.isPlain := by
  have hedits (edits : List TextEdit) : Json.arePlain (edits.map TextEdit.toJson) := by
    induction edits with
    | nil => rfl
    | cons edit edits ih => simp [Json.arePlain, TextEdit.isPlain_toJson, ih]
  simp [toJson, Json.isPlain, Json.fieldsArePlain, Json.nat, hedits, EditLabels.isPlain_toJson]

theorem parse?_print_append (plan : EditPlan) {blanks : String}
    (h : blanks.toList.all Json.Token.isBlank) :
    parse? (plan.print ++ blanks) = if plan.Representable then some plan else none := by
  rw [parse?, print, Json.parse?_pretty plan.isPlain_toJson h, Option.bind_some, ofJson?_toJson]

/-- A plan comes back from its text if its numbers fit into 64 bits, and only then: whatever its
hash, edits and labels are, and with or without a line break behind it. -/
theorem parse?_print_eq_some_iff (plan : EditPlan) :
    (parse? plan.print = some plan ↔ plan.Representable) ∧
      (parse? (plan.print ++ "\n") = some plan ↔ plan.Representable) := by
  have hread (blanks : String) (h : blanks.toList.all Json.Token.isBlank) :
      parse? (plan.print ++ blanks) = some plan ↔ plan.Representable := by
    rw [parse?_print_append plan h]
    simp
  have hplain := hread "" rfl
  rw [String.append_empty] at hplain
  exact ⟨hplain, hread "\n" rfl⟩

end EditPlan

end JavaRefactor
