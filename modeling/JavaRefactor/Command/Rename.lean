import JavaRefactor.Command.Basic

/-! # Renaming and applying plans

A text is written only if its parse has no more error regions than that of the text it
replaces. A plan can be kept in a file and applied later.
-/

namespace JavaRefactor.Command

/-- The number of unreadable regions in the parse of a text. -/
def countErrors (parser : Parser) (text : String) : Except Failure Nat :=
  match parser text with
  | .error e => .error (.parse e)
  | .ok raw => .ok (Tree.ofRaw text raw).errorRegions.length

/-- Refuses a text that parses worse than the one it replaces. -/
def verify (parser : Parser) (file : String) (before : Nat) (text : String) :
    Except Failure Unit := do
  let after ← countErrors parser text
  if before < after then throw (.verification file before after)

/-- The text that a plan makes of the text of a file. -/
def edited (file : String) (plan : EditPlan) (source : String) : Except Failure String :=
  match plan.apply source with
  | .error e => .error (.ofApply (some file) e)
  | .ok text => .ok text

/-- What to rename, and what to do with the plan. -/
structure RenameRequest where
  file : String
  position : Position
  newName : String
  /-- Write the changed text to the file. -/
  apply : Bool := false
  /-- Also write the plan, to be applied later. -/
  planOut : Option String := none
  deriving DecidableEq, Repr

/-- A rename that was planned. -/
structure Planned where
  analysis : Analysis
  symbol : Symbol
  rename : RenamePlan

namespace Planned

/-- Plans a rename. -/
def prepare (parser : Parser) (d : Disk) (request : RenameRequest) : Except Failure Planned := do
  let a ← need parser d request.file
  let symbol ← symbolAt a request.position
  let rename ← a.planRename symbol request.newName
  return ⟨a, symbol, rename⟩

/-- The changed text, if it parses no worse. -/
def verified (parser : Parser) (p : Planned) : Except Failure String := do
  let text ← edited p.analysis.path p.rename.plan p.analysis.source
  verify parser p.analysis.path p.analysis.tree.errorRegions.length text
  return text

/-- The answer about a planned rename. -/
def answer (p : Planned) (applied : Bool) : Except Failure RenameAnswer :=
  match p.rename.plan.materialize p.analysis.source p.analysis.path with
  | .error .editsMeet => .error (.aborted .editsMeet)
  | .ok patch =>
    .ok {
      symbol := p.analysis.symbolInfo p.symbol
      newName := p.rename.newName
      plan := p.rename.plan
      patch
      summary := .ofPlan p.rename.plan
      applied
      fileMove := p.analysis.fileMove? p.symbol p.rename.newName
      warnings := p.analysis.symbolWarnings p.symbol ++ p.analysis.syntaxWarnings }

end Planned

/-- Writes a plan to a file, if one is named. -/
def writePlan (d : Disk) (plan : EditPlan) : Option String → Except Failure Disk
  | none => .ok d
  | some path => writeText d path (plan.print ++ "\n")

/-- Plans a rename. The plan is written first if it is to be kept; then the file, if the
plan is to be applied and has edits. -/
def rename (parser : Parser) (d : Disk) (request : RenameRequest) : Outcome Failure RenameAnswer :=
  match Planned.prepare parser d request with
  | .error f => ⟨.error f, d⟩
  | .ok planned =>
    match writePlan d planned.rename.plan request.planOut with
    | .error f => ⟨.error f, d⟩
    | .ok kept =>
      if request.apply && planned.rename.plan.hasEdits then
        match planned.verified parser with
        | .error f => ⟨.error f, kept⟩
        | .ok text =>
          match writeText kept request.file text with
          | .error f => ⟨.error f, kept⟩
          | .ok written => ⟨planned.answer true, written⟩
      else ⟨planned.answer false, kept⟩

/-- The plan in a file. -/
def readPlan (d : Disk) (path : String) : Except Failure EditPlan := do
  let text ← readText d path
  match EditPlan.parse? text with
  | none => throw (.invalidArguments s!"invalid plan file {path}" none)
  | some plan => return plan

/-- A plan and the text that it makes of a file. -/
def prepareApply (parser : Parser) (d : Disk) (file planFile : String) :
    Except Failure (EditPlan × String) := do
  let source ← readText d file
  let plan ← readPlan d planFile
  let text ← edited file plan source
  let before ← countErrors parser source
  verify parser file before text
  return (plan, text)

/-- Applies a plan to a file. A dry run gives the new text in its answer instead. -/
def applyPlan (parser : Parser) (d : Disk) (file planFile : String) (dryRun : Bool) :
    Outcome Failure ApplyAnswer :=
  match prepareApply parser d file planFile with
  | .error f => ⟨.error f, d⟩
  | .ok (plan, text) =>
    if dryRun then
      ⟨.ok { file, summary := .ofPlan plan, newText := some text }, d⟩
    else
      match writeText d file text with
      | .error f => ⟨.error f, d⟩
      | .ok written => ⟨.ok { file, summary := .ofPlan plan, applied := true }, written⟩

end JavaRefactor.Command
