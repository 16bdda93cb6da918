import JavaRefactor.Command.Basic

/-! # Commands that only ask

They read one file and leave the disk as it is.
-/

namespace JavaRefactor.Command

/-- The symbol at a position of a file. -/
def locate (parser : Parser) (d : Disk) (file : String) (position : Position) :
    Except Failure SymbolAnswer := do
  let a ← need parser d file
  let symbol ← symbolAt a position
  return ⟨a.symbolInfo symbol, a.occurrenceCount symbol, a.symbolWarnings symbol⟩

/-- Every occurrence of the symbol at a position of a file. -/
def references (parser : Parser) (d : Disk) (file : String) (position : Position) :
    Except Failure ReferencesAnswer := do
  let a ← need parser d file
  let symbol ← symbolAt a position
  return ⟨a.symbolInfo symbol, a.references symbol, a.symbolWarnings symbol⟩

/-- The innermost declaration of a kind around a position of a file. -/
def enclosing (parser : Parser) (d : Disk) (file : String) (position : Position)
    (kind : DeclarationKind) : Except Failure DeclarationAnswer := do
  let a ← need parser d file
  match a.enclosing position kind with
  | .error e => throw e.toFailure
  | .ok declaration => return ⟨declaration⟩

end JavaRefactor.Command
