import JavaRefactor.Edit.Apply
import JavaRefactor.Name.Identifier
import JavaRefactor.Path
import JavaRefactor.Rename.Collision

/-! # Planning a rename

The new name is checked as an identifier, then for collisions. The plan has one edit
for each occurrence of the symbol, and none if the symbol has the new name already.
-/

namespace JavaRefactor

/-- Why a rename is refused. -/
inductive RenameError where
  | invalidName (error : NameError)
  | nameCollision (name : String) (collision : Collision)
  | conflict (conflicts : List EditConflict)
  deriving DecidableEq, Repr

/-- The messages of conflicts in one line. -/
def EditConflict.summary (conflicts : List EditConflict) : String :=
  "; ".intercalate (conflicts.map EditConflict.message)

namespace RenameError

def message : RenameError → String
  | invalidName e => s!"invalid name: {e.message}"
  | nameCollision name collision => s!"name collision for '{name}': {collision.cause.reason name}"
  | conflict conflicts =>
    s!"rename produced conflicting edits: {EditConflict.summary conflicts}"

end RenameError

/-- A rename that was not refused. -/
structure RenamePlan where
  symbol : Symbol
  newName : String
  plan : EditPlan
  findings : List Finding
  deriving Repr

/-- A file to be moved along with the type that it is named for. -/
structure FileMove where
  source : String
  target : String
  deriving DecidableEq, Repr

namespace Resolution

/-- One edit for each occurrence of a symbol, none if it has the name already. -/
def renameEdits (r : Resolution) (symbol : Symbol) (name : String) : List TextEdit :=
  if symbol.name = name then [] else (r.occurrencesOf symbol.id).map fun o => ⟨o.span, name⟩

/-- The checked plan of some edits that rename a symbol. -/
def finalizeRename (t : Tree) (symbol : Symbol) (edits : List TextEdit) :
    Except RenameError EditPlan :=
  let labels : EditLabels := { operation := some "rename", symbol := some symbol.name }
  match (edits.foldl EditPlan.push ((EditPlan.ofSource t.source).withLabels labels)).finalize with
  | .error conflicts => .error (.conflict conflicts)
  | .ok plan => .ok plan

/-- Plans to give a symbol a new name. -/
def planRename (r : Resolution) (t : Tree) (symbol : Symbol) (name : String) :
    Except RenameError RenamePlan :=
  match Identifier.validateFor symbol.kind name with
  | .error e => .error (.invalidName e)
  | .ok _ =>
    let collision := if symbol.name = name then none else r.collision? t symbol name
    match collision with
    | some collision => .error (.nameCollision name collision)
    | none =>
      (finalizeRename t symbol (r.renameEdits symbol name)).map fun plan =>
        ⟨symbol, name, plan, r.findingsFor symbol.id⟩

end Resolution

namespace FileMove

/-- The move that goes with a new name for a type at the top of the file named for it. -/
def ofRename? (path : String) (symbol : Symbol) (name : String) : Option FileMove :=
  if symbol.kind = .type && symbol.scope == 0 && symbol.name != name &&
      Path.extension? path == some "java" && Path.stem? path == some symbol.name then
    some ⟨path, Path.withFileName path (name ++ ".java")⟩
  else none

end FileMove

end JavaRefactor
