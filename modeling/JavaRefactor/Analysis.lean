import JavaRefactor.Failure
import JavaRefactor.Project.MainClass
import JavaRefactor.Scope.Query
import JavaRefactor.Sorting

/-! # Analysis of one file

The tree and the resolution of a file, asked and answered in lines and columns. What a
question is about is a position of the file; errors name it.
-/

namespace JavaRefactor

/-- Why a position has no answer. -/
inductive LookupError where
  | positionOutOfRange (file : String) (position : Position)
  | positionInErrorRegion (file : String) (position : Position) (region : Span)
  /-- The nearest symbol helps with positions that are off by a few bytes. -/
  | symbolNotFound (file : String) (position : Position) (nearest : Option (String × Span))
  | declarationNotFound (file : String) (position : Position) (kind : DeclarationKind)
  deriving DecidableEq, Repr

namespace LookupError

def message : LookupError → String
  | positionOutOfRange file position => s!"position {file}:{position.display} is out of range"
  | positionInErrorRegion file position region =>
    s!"position {file}:{position.display} is inside a syntax error region {region.display}"
  | symbolNotFound file position none => s!"no symbol found at {file}:{position.display}"
  | symbolNotFound file position (some (name, span)) =>
    s!"no symbol found at {file}:{position.display}" ++
      s!"; nearest symbol: '{name}' at bytes {span.start}..{span.stop}"
  | declarationNotFound file position kind =>
    s!"no enclosing {kind.name} at {file}:{position.display}"

/-- The failure of a command that asked. -/
def toFailure : LookupError → Failure
  | positionOutOfRange file position => .positionOutOfRange file position
  | positionInErrorRegion file position region => .positionInErrorRegion file position region
  | symbolNotFound file position _ | declarationNotFound file position _ =>
    .symbolNotFound file position

end LookupError

/-- Why a text was not analyzed. -/
inductive AnalysisError where
  | parse (error : ParseError)
  | resolve (error : ResolveError)
  deriving DecidableEq, Repr

namespace AnalysisError

def toFailure : AnalysisError → Failure
  | parse error => .parse error
  | resolve .noScope => .aborted .noScope

end AnalysisError

/-- A parsed and resolved file. The path is used in answers only. -/
structure Analysis where
  path : String
  tree : Tree
  names : Resolution

namespace Analysis

/-- Parses and resolves a text. -/
def run (parser : Parser) (path source : String) : Except AnalysisError Analysis :=
  match parser source with
  | .error e => .error (.parse e)
  | .ok raw =>
    let tree := Tree.ofRaw source raw
    match resolve tree with
    | .error e => .error (.resolve e)
    | .ok names => .ok ⟨path, tree, names⟩

def source (a : Analysis) : String := a.tree.source

/-- The location of a span of the file. -/
def location (a : Analysis) (span : Span) : Location := .ofSpan a.path a.source span

/-- The offset of a position. -/
def offsetAt (a : Analysis) (position : Position) : Except LookupError Nat :=
  match position.toOffset? a.source with
  | some offset => .ok offset
  | none => .error (.positionOutOfRange a.path position)

/-- How far a near miss may be off, in bytes. -/
def nearDistance : Nat := 10

/-- The distance of an offset from a span. Past the end it counts one more than before the
start. -/
def distance (offset : Nat) (span : Span) : Nat :=
  if offset < span.start then span.start - offset else offset - span.stop + 1

/-- The name and span whose distance is least, of equals the one that starts first. -/
def nearestOf? (offset : Nat) : List (String × Span) → Option (String × Span)
  | [] => none
  | entry :: rest =>
    match nearestOf? offset rest with
    | none => some entry
    | some best =>
      let d := distance offset entry.2
      let e := distance offset best.2
      if d < e || (d == e && entry.2.start ≤ best.2.start) then some entry else some best

/-- The nearest occurrence of any symbol. -/
def nearest? (a : Analysis) (offset : Nat) : Option (String × Span) :=
  let occurrences := a.names.symbols.toList.flatMap fun s =>
    (a.names.occurrencesOf s.id).map fun o => (s.name, o.span)
  nearestOf? offset (occurrences.filter fun entry => distance offset entry.2 ≤ nearDistance)

/-- Names the position that a query was about. -/
def lookupError (a : Analysis) (position : Position) : QueryError → LookupError
  | .outOfRange _ _ => .positionOutOfRange a.path position
  | .positionInErrorRegion _ region => .positionInErrorRegion a.path position region
  | .notFound offset => .symbolNotFound a.path position (a.nearest? offset)

/-- The symbol at a position. -/
def locate (a : Analysis) (position : Position) : Except LookupError Symbol := do
  let offset ← a.offsetAt position
  match a.names.symbolAt a.tree offset with
  | .error e => throw (a.lookupError position e)
  | .ok symbol => return a.names.symbols.getD symbol default

/-- Every occurrence of a symbol, its declaration first. -/
def references (a : Analysis) (symbol : Symbol) : List ReferenceInfo :=
  (a.names.occurrencesOf symbol.id).map fun o => ⟨a.location o.span, o.kind.name⟩

/-- Plans to give a symbol a new name. -/
def planRename (a : Analysis) (symbol : Symbol) (name : String) : Except Failure RenamePlan :=
  match a.names.planRename a.tree symbol name with
  | .error e => .error (.ofRename (fun span => some (a.location span)) e)
  | .ok plan => .ok plan

/-- The move of the file that goes with a new name for a symbol. -/
def fileMove? (a : Analysis) (symbol : Symbol) (name : String) : Option FileMove :=
  FileMove.ofRename? a.path symbol name

/-- The innermost declaration of a kind around a position. -/
def enclosing (a : Analysis) (position : Position) (kind : DeclarationKind) :
    Except LookupError DeclarationInfo := do
  let offset ← a.offsetAt position
  match a.tree.enclosingDeclaration offset kind with
  | .error (.notFound _) => throw (.declarationNotFound a.path position kind)
  | .error e => throw (a.lookupError position e)
  | .ok node =>
    let span := a.tree.span node
    return {
      kind := kind.name
      nodeKind := (a.tree.node node).grammar
      name := a.tree.declarationName? node
      location := a.location span
      span }

/-- A symbol as it is shown. -/
def symbolInfo (a : Analysis) (symbol : Symbol) : SymbolInfo :=
  { id := symbol.label
    name := symbol.name
    kind := symbol.kind.name
    location := a.location (a.names.declarationSpan symbol.id)
    container := symbol.container.map SymbolId.label }

/-- The number of occurrences of a symbol. -/
def occurrenceCount (a : Analysis) (symbol : Symbol) : Nat :=
  (a.names.occurrencesOf symbol.id).length

/-- The warning for a finding. -/
def warningOf (a : Analysis) (finding : Finding) : Warning :=
  { code := finding.code
    message := finding.message
    location := some (a.location finding.span)
    suggestion := if finding.isDuplicate then some "rename one of the declarations" else none }

/-- Warnings that go with an answer about a symbol. -/
def symbolWarnings (a : Analysis) (symbol : Symbol) : List Warning :=
  (a.names.findingsFor symbol.id).map a.warningOf

/-- One warning for each unreadable region. -/
def syntaxWarnings (a : Analysis) : List Warning :=
  a.tree.errorRegions.map fun region =>
    { code := "syntax_error"
      message := s!"unparseable source in {region.display}"
      location := some (a.location region) }

/-- How many unresolved names a warning lists. -/
def listedNames : Nat := 10

/-- Leaves out each name that equals the one before it. -/
def dropRepeatedNames : List String → List String
  | a :: b :: rest =>
    if a = b then dropRepeatedNames (b :: rest) else a :: dropRepeatedNames (b :: rest)
  | names => names

/-- The names that have no declaration in the file, in order. -/
def unresolvedNames (a : Analysis) : List String :=
  dropRepeatedNames (sortBy (fun m n => m ≤ n) (a.names.unresolved.map (·.name)))

/-- The warning about names that have no declaration in the file. -/
def unresolvedWarning? (a : Analysis) : Option Warning :=
  match a.unresolvedNames with
  | [] => none
  | names =>
    let count := names.length
    let more := count - listedNames
    let listed := ", ".intercalate (names.take listedNames)
    let rest := if 0 < more then s!", and {more} more" else ""
    some {
      code := "unresolved_reference"
      message := s!"{count} names do not resolve within this file: {listed}{rest}" }

/-- The warnings about a whole file: unreadable regions, repeated declarations, and names
from elsewhere. -/
def fileWarnings (a : Analysis) : List Warning :=
  a.syntaxWarnings ++ (a.names.findings.toList.filter (·.isDuplicate)).map a.warningOf ++
    a.unresolvedWarning?.toList

end Analysis

end JavaRefactor
