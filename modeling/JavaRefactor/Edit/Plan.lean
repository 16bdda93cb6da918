import JavaRefactor.Hash.Sha256
import JavaRefactor.Sorting
import JavaRefactor.Text.Utf8

/-! # Edit plans

A plan is a list of replacements for one text, which it knows by content hash
and length. Adding an edit leaves a plan unchecked. Finalizing sorts the edits
from the end of the text to its beginning and marks the plan valid if no two of
them meet and all lie within the text.
-/

namespace JavaRefactor

/-- The SHA-256 of a text in hexadecimal digits. -/
structure ContentHash where
  hex : String
  deriving DecidableEq, Repr, Inhabited

namespace ContentHash

def ofText (text : String) : ContentHash := ⟨Sha256.hex text.toUTF8.toList⟩

end ContentHash

/-- Puts `newText` in the place of the bytes of `span`. -/
structure TextEdit where
  span : Span
  newText : String
  deriving DecidableEq, Repr, Inhabited

/-- What a plan is for. -/
structure EditLabels where
  operation : Option String := none
  symbol : Option String := none
  reason : Option String := none
  deriving DecidableEq, Repr, Inhabited

/-- Why a plan cannot be marked valid. -/
inductive EditConflict where
  | overlapping (first second : Span)
  | outOfBounds (span : Span) (sourceLength : Nat)
  deriving DecidableEq, Repr

namespace EditConflict

def message : EditConflict → String
  | overlapping first second => s!"edits {first.display} and {second.display} overlap"
  | outOfBounds span length => s!"edit {span.display} is outside source of {length} bytes"

end EditConflict

structure EditPlan where
  sourceHash : ContentHash
  sourceLength : Nat
  edits : List TextEdit := []
  valid : Bool := false
  labels : EditLabels := {}
  deriving DecidableEq, Repr, Inhabited

namespace EditPlan

/-- The plan that changes nothing, not yet checked. -/
def ofSource (source : String) : EditPlan :=
  { sourceHash := .ofText source, sourceLength := Text.byteLength source }

/-- Adds an edit behind the others. -/
def push (plan : EditPlan) (edit : TextEdit) : EditPlan :=
  { plan with edits := plan.edits ++ [edit], valid := false }

def withLabels (plan : EditPlan) (labels : EditLabels) : EditPlan := { plan with labels }

def hasEdits (plan : EditPlan) : Bool := !plan.edits.isEmpty

/-- Bytes that the edits put in. -/
def bytesAdded (plan : EditPlan) : Nat :=
  plan.edits.foldr (fun edit total => Text.byteLength edit.newText + total) 0

/-- Bytes that the edits take out. -/
def bytesRemoved (plan : EditPlan) : Nat :=
  plan.edits.foldr (fun edit total => edit.span.length + total) 0

/-- Sorts the edits from the end of the text to its beginning. -/
def sortEdits (plan : EditPlan) : EditPlan :=
  { plan with edits := sortBy (fun a b => b.span.le a.span) plan.edits }

/-- The edit lies within a text of `length` bytes. -/
def inBounds (length : Nat) (span : Span) : Bool := span.start ≤ span.stop && span.stop ≤ length

/-- Two neighbours in ascending order that meet, or that start together. -/
def meet (first second : Span) : Bool := first.overlaps second || first.start == second.start

/-- The conflicts between neighbours of a list of spans. -/
def neighbourConflicts : List Span → List EditConflict
  | first :: second :: rest =>
    let others := neighbourConflicts (second :: rest)
    if meet first second then .overlapping first second :: others else others
  | _ => []

/-- The conflicts of a plan: first the edits outside the text, in list order, then the
neighbours that meet, in ascending order. -/
def conflicts (plan : EditPlan) : List EditConflict :=
  let spans := plan.edits.map (·.span)
  (spans.filter fun s => !inBounds plan.sourceLength s).map (.outOfBounds · plan.sourceLength) ++
    neighbourConflicts (sortBy Span.le spans)

/-- Sorts the edits and marks the plan valid, or reports its conflicts. -/
def finalize (plan : EditPlan) : Except (List EditConflict) EditPlan :=
  let sorted := plan.sortEdits
  match sorted.conflicts with
  | [] => .ok { sorted with valid := true }
  | found => .error found

end EditPlan

end JavaRefactor
