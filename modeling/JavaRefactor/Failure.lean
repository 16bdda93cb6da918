import JavaRefactor.Answer.Parts
import JavaRefactor.Edit.Apply
import JavaRefactor.Edit.Diff

/-! # Failures

Every way in which a command can fail, with the message, the exit code and the details
that are reported for it.
-/

namespace JavaRefactor

/-- Why a command stops without any answer. -/
inductive Abort where
  /-- A name had no scope to be declared in. -/
  | noScope
  /-- Edits that meet left no text to replace. -/
  | editsMeet
  deriving DecidableEq, Repr

/-- Classes of failures, which callers tell apart by exit code. -/
inductive FailureClass where
  | invalidArguments
  | resolution
  | apply
  | verification
  | internal
  /-- No answer was given. -/
  | aborted
  deriving DecidableEq, Repr

namespace FailureClass

def code : FailureClass → Nat
  | invalidArguments => 2
  | resolution => 3
  | apply => 4
  | verification => 5
  | internal => 10
  | aborted => 101

end FailureClass

inductive Failure where
  | invalidArguments (text : String) (details : Option Json)
  | parse (error : ParseError)
  | positionOutOfRange (file : String) (position : Position)
  | positionInErrorRegion (file : String) (position : Position) (region : Span)
  | symbolNotFound (file : String) (position : Position)
  | invalidIdentifier (name reason : String)
  | nameCollision (name reason : String) (existing : Option Location)
  | editOutOfBounds (span : Span) (length : Nat)
  | fileNotFound (path : String)
  | apply (text : String) (file : Option String)
  | verification (file : String) (before after : Nat)
  | internal (text : String)
  | aborted (cause : Abort)
  deriving Repr

namespace Failure

def classOf : Failure → FailureClass
  | invalidArguments .. | invalidIdentifier .. => .invalidArguments
  | positionOutOfRange .. | positionInErrorRegion .. | symbolNotFound .. | nameCollision ..
  | fileNotFound .. => .resolution
  | editOutOfBounds .. | apply .. => .apply
  | verification .. => .verification
  | parse .. | internal .. => .internal
  | aborted .. => .aborted

/-- The exit code of a command that fails. -/
def code (f : Failure) : Nat := f.classOf.code

def message : Failure → String
  | invalidArguments text _ => s!"invalid arguments: {text}"
  | parse error => s!"parse error: {error.reason}"
  | positionOutOfRange file position => s!"position {file}:{position.display} is out of range"
  | positionInErrorRegion file position region =>
    s!"position {file}:{position.display} is inside a syntax error region {region.display}"
  | symbolNotFound file position => s!"no symbol found at {file}:{position.display}"
  | invalidIdentifier name reason => s!"invalid identifier '{name}': {reason}"
  | nameCollision name reason _ => s!"name collision for '{name}': {reason}"
  | editOutOfBounds span length =>
    s!"edit {span.display} is out of bounds for text of {length} bytes"
  | fileNotFound path => s!"file not found: {path}"
  | apply text _ => s!"apply error: {text}"
  | verification file before after =>
    s!"verification failed for {file}: syntax error regions {before} -> {after}"
  | internal text => s!"internal error: {text}"
  | aborted .noScope => "no scope is open for a declaration"
  | aborted .editsMeet => "edits of the plan meet"

/-- The ends of a span in the order of their names. -/
def sortedEnds (s : Span) : Json := .obj [("end", .nat s.stop), ("start", .nat s.start)]

/-- What is reported besides the message. Free JSON is shown with sorted names. -/
def details? : Failure → Option Json
  | invalidArguments _ details => details.map Json.sortFields
  | positionInErrorRegion _ _ region => some (.obj [("region", sortedEnds region)])
  | fileNotFound path => some (.obj [("path", .str path)])
  | apply _ file => file.map fun f => .obj [("file", .str f)]
  | editOutOfBounds span length =>
    some (.obj [("len", .nat length), ("span", sortedEnds span)])
  | parse error => error.offset.map fun o => .obj [("offset", .nat o)]
  | verification file before after =>
    some (.obj [("error_regions_after", .nat after), ("error_regions_before", .nat before),
      ("file", .str file)])
  | _ => none

/-- The place that a failure is about. -/
def location? : Failure → Option Location
  | symbolNotFound file position | positionOutOfRange file position
  | positionInErrorRegion file position _ => some ⟨file, position.line, position.col, none, none⟩
  | nameCollision _ _ existing => existing
  | _ => none

/-- A failure as it is shown. -/
def toJson (f : Failure) : Json :=
  .obj [("status", .str "error"), ("schema_version", .str "1"),
    ("error", .obj ([("code", .nat f.code), ("message", .str f.message)] ++
      Json.field? "details" id f.details? ++ Json.field? "location" Location.toJson f.location?))]

/-- A plan that was not applied. -/
def ofApply (file : Option String) : ApplyError → Failure
  | .editOutOfBounds span length => .editOutOfBounds span length
  | other => .apply other.message file

/-- A refused name. -/
def ofName (error : NameError) : Failure := .invalidIdentifier error.name error.fault.reason

/-- A refused rename; `place` gives the location of the clash. -/
def ofRename (place : Span → Option Location) : RenameError → Failure
  | .invalidName error => ofName error
  | .nameCollision name collision =>
    .nameCollision name (collision.cause.reason name) (place collision.existing)
  | .conflict conflicts =>
    .internal s!"rename produced conflicting edits: {EditConflict.summary conflicts}"

/-- Trouble with a disk or another device. -/
def ofDevice (text : String) : Failure := .internal s!"IO error: {text}"

/-- Trouble with JSON text. -/
def ofJsonText (text : String) : Failure := .internal s!"JSON error: {text}"

end Failure

end JavaRefactor
