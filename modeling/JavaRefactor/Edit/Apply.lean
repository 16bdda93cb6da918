import JavaRefactor.Edit.Plan
import JavaRefactor.Sorting

/-! # Applying a plan

A plan applies as a whole or not at all. Edits are spliced in from the end of the
text to its beginning, so that an edit still to come refers to bytes that have
not moved.
-/

namespace JavaRefactor

/-- Why a plan was not applied. -/
inductive ApplyError where
  | invalidPlan
  | sourceChanged (expected actual : ContentHash)
  | overlapping (first second : Span)
  | editOutOfBounds (span : Span) (length : Nat)
  deriving DecidableEq, Repr

namespace ApplyError

def message : ApplyError → String
  | invalidPlan => "edit plan has not been validated"
  | sourceChanged expected actual =>
    s!"source changed since the plan was computed (expected {expected.hex}, found {actual.hex})"
  | overlapping first second => s!"overlapping edits {first.display} and {second.display}"
  | editOutOfBounds span length =>
    s!"edit {span.display} is out of bounds for text of {length} bytes"

end ApplyError

namespace EditPlan

/-- The overlap that stands first among some conflicts. -/
def firstOverlap? : List EditConflict → Option (Span × Span)
  | [] => none
  | .overlapping first second :: _ => some (first, second)
  | .outOfBounds _ _ :: rest => firstOverlap? rest

/-- Splices edits into a text one after the other. -/
def spliceAll (text : List Char) : List TextEdit → Except ApplyError (List Char)
  | [] => .ok text
  | edit :: rest =>
    match Text.splice? text edit.span edit.newText.toList with
    | none => .error (.editOutOfBounds edit.span (Text.width text))
    | some next => spliceAll next rest

/-- The edits from the end of the text to its beginning. -/
def descending (plan : EditPlan) : List TextEdit :=
  sortBy (fun a b => b.span.start ≤ a.span.start) plan.edits

/-- The text that a valid plan makes of the text it was computed for. -/
def apply (plan : EditPlan) (source : String) : Except ApplyError String :=
  if !plan.valid then .error .invalidPlan
  else
    let actual := ContentHash.ofText source
    if actual ≠ plan.sourceHash then .error (.sourceChanged plan.sourceHash actual)
    else
      match firstOverlap? plan.conflicts with
      | some (first, second) => .error (.overlapping first second)
      | none => (spliceAll source.toList plan.descending).map String.ofList

end EditPlan

end JavaRefactor
