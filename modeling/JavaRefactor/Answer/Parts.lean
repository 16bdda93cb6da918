import JavaRefactor.Edit.Diff
import JavaRefactor.Edit.PlanFile
import JavaRefactor.Rename.Plan
import JavaRefactor.Sorting
import JavaRefactor.Text.Location

/-! # Parts of answers

Symbols, references, declarations, warnings and summaries as they are shown, with their
JSON forms in both directions.
-/

namespace JavaRefactor

namespace Location

def toJson (l : Location) : Json :=
  .obj ([("file", .str l.file), ("line", .nat l.line), ("col", .nat l.col)] ++
    Json.field? "byte_start" .nat l.byteStart ++ Json.field? "byte_end" .nat l.byteEnd)

def ofJson? (value : Json) : Option Location := do
  let fields ← value.record? ["file", "line", "col", "byte_start", "byte_end"] 0
  let file ← Json.required fields "file" Json.str?
  let line ← Json.required fields "line" Json.word32?
  let col ← Json.required fields "col" Json.word32?
  let byteStart ← Json.optional fields "byte_start" Json.word64?
  let byteEnd ← Json.optional fields "byte_end" Json.word64?
  return ⟨file, line, col, byteStart, byteEnd⟩

end Location

/-- A symbol as it is shown. -/
structure SymbolInfo where
  id : String
  name : String
  kind : String
  location : Location
  container : Option String := none
  deriving DecidableEq, Repr

namespace SymbolInfo

def toJson (s : SymbolInfo) : Json :=
  .obj ([("id", .str s.id), ("name", .str s.name), ("kind", .str s.kind),
    ("location", s.location.toJson)] ++ Json.field? "container" .str s.container)

def ofJson? (value : Json) : Option SymbolInfo := do
  let fields ← value.record? ["id", "name", "kind", "location", "container"] 0
  let id ← Json.required fields "id" Json.str?
  let name ← Json.required fields "name" Json.str?
  let kind ← Json.required fields "kind" Json.str?
  let location ← Json.required fields "location" Location.ofJson?
  let container ← Json.optional fields "container" Json.str?
  return ⟨id, name, kind, location, container⟩

end SymbolInfo

/-- An occurrence as it is shown. -/
structure ReferenceInfo where
  location : Location
  kind : String
  deriving DecidableEq, Repr

namespace ReferenceInfo

def toJson (r : ReferenceInfo) : Json :=
  .obj [("location", r.location.toJson), ("kind", .str r.kind)]

def ofJson? (value : Json) : Option ReferenceInfo := do
  let fields ← value.record? ["location", "kind"] 0
  let location ← Json.required fields "location" Location.ofJson?
  let kind ← Json.required fields "kind" Json.str?
  return ⟨location, kind⟩

end ReferenceInfo

/-- A declaration as it is shown. -/
structure DeclarationInfo where
  kind : String
  nodeKind : String
  name : Option String
  location : Location
  span : Span
  deriving DecidableEq, Repr

namespace DeclarationInfo

def toJson (d : DeclarationInfo) : Json :=
  .obj ([("kind", .str d.kind), ("node_kind", .str d.nodeKind)] ++ Json.field? "name" .str d.name ++
    [("location", d.location.toJson), ("span", d.span.toJson)])

def ofJson? (value : Json) : Option DeclarationInfo := do
  let fields ← value.record? ["kind", "node_kind", "name", "location", "span"] 0
  let kind ← Json.required fields "kind" Json.str?
  let nodeKind ← Json.required fields "node_kind" Json.str?
  let name ← Json.optional fields "name" Json.str?
  let location ← Json.required fields "location" Location.ofJson?
  let span ← Json.required fields "span" Span.ofJson?
  return ⟨kind, nodeKind, name, location, span⟩

end DeclarationInfo

/-- Something to know about an answer that is given all the same. -/
structure Warning where
  code : String
  message : String
  location : Option Location := none
  suggestion : Option String := none
  deriving DecidableEq, Repr

namespace Warning

def toJson (w : Warning) : Json :=
  .obj ([("code", .str w.code), ("message", .str w.message)] ++
    Json.field? "location" Location.toJson w.location ++
    Json.field? "suggestion" .str w.suggestion)

def ofJson? (value : Json) : Option Warning := do
  let fields ← value.record? ["code", "message", "location", "suggestion"] 0
  let code ← Json.required fields "code" Json.str?
  let message ← Json.required fields "message" Json.str?
  let location ← Json.optional fields "location" Location.ofJson?
  let suggestion ← Json.optional fields "suggestion" Json.str?
  return ⟨code, message, location, suggestion⟩

/-- The order of warnings: by location and code, behind them those without a location by
code. -/
def le (a b : Warning) : Bool :=
  match a.location, b.location with
  | some l, some m => if l.samePlace m then a.code ≤ b.code else l.le m
  | some _, none => true
  | none, some _ => false
  | none, none => a.code ≤ b.code

/-- Warnings in the order in which they are shown. -/
def listToJson (warnings : List Warning) : Json := .arr ((sortBy le warnings).map toJson)

end Warning

/-- How much a plan changes. Numbers of bytes are kept in signed words. -/
structure Summary where
  filesChanged : Nat
  editsCount : Nat
  bytesAdded : Int
  bytesRemoved : Int
  deriving DecidableEq, Repr

namespace Summary

def ofPlan (plan : EditPlan) : Summary :=
  { filesChanged := if plan.hasEdits then 1 else 0
    editsCount := plan.edits.length
    bytesAdded := Decimal.signed64 plan.bytesAdded
    bytesRemoved := Decimal.signed64 plan.bytesRemoved }

def toJson (s : Summary) : Json :=
  .obj [("files_changed", .nat s.filesChanged), ("edits_count", .nat s.editsCount),
    ("bytes_added", .int s.bytesAdded), ("bytes_removed", .int s.bytesRemoved)]

def ofJson? (value : Json) : Option Summary := do
  let fields ← value.record? ["files_changed", "edits_count", "bytes_added", "bytes_removed"] 0
  let filesChanged ← Json.required fields "files_changed" Json.word32?
  let editsCount ← Json.required fields "edits_count" Json.word32?
  let bytesAdded ← Json.required fields "bytes_added" Json.signed64?
  let bytesRemoved ← Json.required fields "bytes_removed" Json.signed64?
  return ⟨filesChanged, editsCount, bytesAdded, bytesRemoved⟩

end Summary

namespace FileMove

def toJson (m : FileMove) : Json := .obj [("from", .str m.source), ("to", .str m.target)]

def ofJson? (value : Json) : Option FileMove := do
  let fields ← value.record? ["from", "to"] 0
  let source ← Json.required fields "from" Json.str?
  let target ← Json.required fields "to" Json.str?
  return ⟨source, target⟩

end FileMove

namespace OutputEdit

def toJson (e : OutputEdit) : Json :=
  .obj [("file", .str e.file), ("span", e.span.toJson), ("old_text", .str e.oldText),
    ("new_text", .str e.newText), ("line", .nat e.line), ("col", .nat e.col)]

def ofJson? (value : Json) : Option OutputEdit := do
  let fields ← value.record? ["file", "span", "old_text", "new_text", "line", "col"] 0
  let file ← Json.required fields "file" Json.str?
  let span ← Json.required fields "span" Span.ofJson?
  let oldText ← Json.required fields "old_text" Json.str?
  let newText ← Json.required fields "new_text" Json.str?
  let line ← Json.required fields "line" Json.word32?
  let col ← Json.required fields "col" Json.word32?
  return ⟨file, span, oldText, newText, line, col⟩

end OutputEdit

namespace Patch

def toJson (p : Patch) : Json :=
  .obj [("edits", .arr (p.edits.map OutputEdit.toJson)), ("unified_diff", .str p.unifiedDiff)]

def ofJson? (value : Json) : Option Patch := do
  let fields ← value.record? ["edits", "unified_diff"] 0
  let edits ← Json.required fields "edits" (Json.list? OutputEdit.ofJson?)
  let diff ← Json.required fields "unified_diff" Json.str?
  return ⟨edits, diff⟩

end Patch

end JavaRefactor
