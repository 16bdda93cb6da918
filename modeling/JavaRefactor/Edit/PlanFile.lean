import JavaRefactor.Edit.Plan
import JavaRefactor.Json.Printer
import JavaRefactor.Json.Reader

/-! # Plan files

A plan is kept in a file as one JSON object. Reading ignores fields it does not
know and refuses a known one that stands twice; only the labels may be missing.
-/

namespace JavaRefactor

namespace Span

def toJson (s : Span) : Json := .obj [("start", .nat s.start), ("end", .nat s.stop)]

def ofJson? (value : Json) : Option Span := do
  let fields ← value.record? ["start", "end"] 0
  let start ← Json.required fields "start" Json.word64?
  let stop ← Json.required fields "end" Json.word64?
  return ⟨start, stop⟩

end Span

namespace TextEdit

def toJson (edit : TextEdit) : Json :=
  .obj [("span", edit.span.toJson), ("new_text", .str edit.newText)]

def ofJson? (value : Json) : Option TextEdit := do
  let fields ← value.record? ["span", "new_text"] 0
  let span ← Json.required fields "span" Span.ofJson?
  let newText ← Json.required fields "new_text" Json.str?
  return ⟨span, newText⟩

end TextEdit

namespace EditLabels

def toJson (labels : EditLabels) : Json :=
  .obj (Json.field? "operation" .str labels.operation ++ Json.field? "symbol" .str labels.symbol ++
    Json.field? "reason" .str labels.reason)

def ofJson? (value : Json) : Option EditLabels := do
  let fields ← value.record? ["operation", "symbol", "reason"] 0
  let operation ← Json.optional fields "operation" Json.str?
  let symbol ← Json.optional fields "symbol" Json.str?
  let reason ← Json.optional fields "reason" Json.str?
  return ⟨operation, symbol, reason⟩

end EditLabels

namespace EditConflict

def toJson : EditConflict → Json
  | overlapping first second =>
    .obj [("kind", .str "overlapping"), ("first", first.toJson), ("second", second.toJson)]
  | outOfBounds span length =>
    .obj [("kind", .str "out_of_bounds"), ("span", span.toJson), ("source_len", .nat length)]

/-- Reads the fields that go with a kind of conflict. -/
def ofFields? (kind : String) (value : Json) : Option EditConflict :=
  if kind = "overlapping" then do
    let fields ← value.record? ["first", "second"] 0
    let first ← Json.required fields "first" Span.ofJson?
    let second ← Json.required fields "second" Span.ofJson?
    return .overlapping first second
  else if kind = "out_of_bounds" then do
    let fields ← value.record? ["span", "source_len"] 0
    let span ← Json.required fields "span" Span.ofJson?
    let length ← Json.required fields "source_len" Json.word64?
    return .outOfBounds span length
  else none

def ofJson? (value : Json) : Option EditConflict := do
  match value with
  | .obj _ =>
    let fields ← value.record? ["kind"] 0
    let kind ← Json.required fields "kind" Json.str?
    ofFields? kind value
  | .arr (.str kind :: rest) => ofFields? kind (.arr rest)
  | _ => none

end EditConflict

namespace EditPlan

def toJson (plan : EditPlan) : Json :=
  .obj [("source_hash", .str plan.sourceHash.hex), ("source_len", .nat plan.sourceLength),
    ("edits", .arr (plan.edits.map TextEdit.toJson)), ("valid", .bool plan.valid),
    ("labels", plan.labels.toJson)]

def ofJson? (value : Json) : Option EditPlan := do
  let fields ← value.record? ["source_hash", "source_len", "edits", "valid", "labels"] 1
  let hash ← Json.required fields "source_hash" Json.str?
  let length ← Json.required fields "source_len" Json.word64?
  let edits ← Json.required fields "edits" (Json.list? TextEdit.ofJson?)
  let valid ← Json.required fields "valid" Json.bool?
  let labels ← match fields.lookup "labels" with
    | none => some {}
    | some labels => EditLabels.ofJson? labels
  return ⟨⟨hash⟩, length, edits, valid, labels⟩

/-- The text of a plan as JSON. -/
def print (plan : EditPlan) : String := plan.toJson.pretty

/-- Reads a plan from JSON text. -/
def parse? (text : String) : Option EditPlan := (Json.parse? text).bind ofJson?

end EditPlan

end JavaRefactor
