import JavaRefactor.Answer.Parts
import JavaRefactor.Failure
import JavaRefactor.Sorting

/-! # Answers of commands

Every command answers with one JSON document. It begins with a header; the other
fields stand in a fixed order, and warnings are sorted.
-/

namespace JavaRefactor

/-- What every document begins with. -/
structure Header where
  status : String := "ok"
  schemaVersion : String := "1"
  deriving DecidableEq, Repr

namespace Header

/-- A document with a header and further fields. -/
def document (h : Header) (fields : List (String × Json)) : Json :=
  .obj (("status", .str h.status) :: ("schema_version", .str h.schemaVersion) :: fields)

end Header

/-- The text of a document as it is printed. -/
def Json.emit (value : Json) : String := value.pretty ++ "\n"

/-- The symbol at a position. -/
structure SymbolAnswer where
  symbol : SymbolInfo
  occurrences : Nat
  warnings : List Warning
  deriving DecidableEq, Repr

namespace SymbolAnswer

def toJson (a : SymbolAnswer) : Json :=
  Header.document {} [("symbol", a.symbol.toJson), ("occurrences", .nat a.occurrences),
    ("warnings", Warning.listToJson a.warnings)]

end SymbolAnswer

/-- Every occurrence of the symbol at a position. -/
structure ReferencesAnswer where
  symbol : SymbolInfo
  references : List ReferenceInfo
  warnings : List Warning
  deriving DecidableEq, Repr

namespace ReferencesAnswer

def toJson (a : ReferencesAnswer) : Json :=
  Header.document {} [("symbol", a.symbol.toJson),
    ("references", .arr (a.references.map ReferenceInfo.toJson)),
    ("warnings", Warning.listToJson a.warnings)]

end ReferencesAnswer

/-- A rename, planned or also applied. -/
structure RenameAnswer where
  header : Header := {}
  symbol : SymbolInfo
  newName : String
  plan : EditPlan
  patch : Patch
  summary : Summary
  applied : Bool
  fileMove : Option FileMove
  warnings : List Warning
  deriving Repr

namespace RenameAnswer

def toJson (a : RenameAnswer) : Json :=
  a.header.document ([("symbol", a.symbol.toJson), ("new_name", .str a.newName),
    ("plan", a.plan.toJson), ("patch", a.patch.toJson), ("summary", a.summary.toJson),
    ("applied", .bool a.applied)] ++ Json.field? "file_rename" FileMove.toJson a.fileMove ++
    [("warnings", Warning.listToJson a.warnings)])

def ofJson? (value : Json) : Option RenameAnswer := do
  let fields ← value.record? ["status", "schema_version", "symbol", "new_name", "plan", "patch",
    "summary", "applied", "file_rename", "warnings"] 0
  let status ← Json.required fields "status" Json.str?
  let version ← Json.required fields "schema_version" Json.str?
  let symbol ← Json.required fields "symbol" SymbolInfo.ofJson?
  let newName ← Json.required fields "new_name" Json.str?
  let plan ← Json.required fields "plan" EditPlan.ofJson?
  let patch ← Json.required fields "patch" Patch.ofJson?
  let summary ← Json.required fields "summary" Summary.ofJson?
  let applied ← Json.required fields "applied" Json.bool?
  let fileMove ← Json.optional fields "file_rename" FileMove.ofJson?
  let warnings ← Json.required fields "warnings" (Json.list? Warning.ofJson?)
  return ⟨⟨status, version⟩, symbol, newName, plan, patch, summary, applied, fileMove, warnings⟩

end RenameAnswer

/-- A plan, applied to a file or only to its text. -/
structure ApplyAnswer where
  file : String
  summary : Summary
  applied : Bool := false
  newText : Option String := none
  deriving DecidableEq, Repr

namespace ApplyAnswer

def toJson (a : ApplyAnswer) : Json :=
  Header.document {} ([("file", .str a.file), ("summary", a.summary.toJson),
    ("applied", .bool a.applied)] ++ Json.field? "new_text" .str a.newText)

end ApplyAnswer

/-- The declaration around a position. -/
structure DeclarationAnswer where
  declaration : DeclarationInfo
  deriving DecidableEq, Repr

namespace DeclarationAnswer

def toJson (a : DeclarationAnswer) : Json :=
  Header.document {} [("declaration", a.declaration.toJson)]

end DeclarationAnswer

/-- What is to say about one file. -/
structure FileCheck where
  file : String
  analyzed : Bool
  errorRegions : Nat
  symbols : Nat
  package : Option String
  warnings : List Warning
  deriving DecidableEq, Repr

namespace FileCheck

/-- The file could not be read, or only in parts. -/
def hasErrors (c : FileCheck) : Bool := !c.analyzed || 0 < c.errorRegions

def toJson (c : FileCheck) : Json :=
  .obj ([("file", .str c.file), ("analyzed", .bool c.analyzed),
    ("error_regions", .nat c.errorRegions), ("symbols", .nat c.symbols)] ++
    Json.field? "package" .str c.package ++ [("warnings", Warning.listToJson c.warnings)])

def ofJson? (value : Json) : Option FileCheck := do
  let fields ← value.record?
    ["file", "analyzed", "error_regions", "symbols", "package", "warnings"] 0
  let file ← Json.required fields "file" Json.str?
  let analyzed ← Json.required fields "analyzed" Json.bool?
  let errorRegions ← Json.required fields "error_regions" Json.word32?
  let symbols ← Json.required fields "symbols" Json.word32?
  let package ← Json.optional fields "package" Json.str?
  let warnings ← Json.required fields "warnings" (Json.list? Warning.ofJson?)
  return ⟨file, analyzed, errorRegions, symbols, package, warnings⟩

end FileCheck

/-- Checks of files, in the order of their names. -/
structure CheckAnswer where
  files : List FileCheck
  deriving DecidableEq, Repr

namespace CheckAnswer

def ofChecks (checks : List FileCheck) : CheckAnswer :=
  ⟨sortBy (fun a b => a.file ≤ b.file) checks⟩

def filesWithErrors (a : CheckAnswer) : Nat := (a.files.filter FileCheck.hasErrors).length

def warningsCount (a : CheckAnswer) : Nat :=
  a.files.foldr (fun check total => check.warnings.length + total) 0

def toJson (a : CheckAnswer) : Json :=
  Header.document {} [("files", .arr (a.files.map FileCheck.toJson)),
    ("files_with_errors", .nat a.filesWithErrors), ("warnings_count", .nat a.warningsCount)]

end CheckAnswer

/-- The file that declares the main class, and its package. -/
structure MainClassAnswer where
  file : String
  package : String
  deriving DecidableEq, Repr

namespace MainClassAnswer

def toJson (a : MainClassAnswer) : Json :=
  Header.document {} [("file_path", .str a.file), ("package_name", .str a.package)]

end MainClassAnswer

/-- A file that was added. -/
structure NewFileAnswer where
  file : String
  deriving DecidableEq, Repr

namespace NewFileAnswer

def toJson (a : NewFileAnswer) : Json := Header.document {} [("file_path", .str a.file)]

end NewFileAnswer

end JavaRefactor
