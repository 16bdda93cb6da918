import JavaRefactor.Command.Ask
import JavaRefactor.CommandLine.Invocation

/-! # Running a command line

A command prints one document and ends with an exit code. A command line that is refused
prints nothing, and neither does a command that stops without an answer.
-/

namespace JavaRefactor.CommandLine

/-- What a run prints, how it ends and what disk it leaves. -/
structure Finished where
  code : Nat
  output : String
  disk : Disk

/-- Runs a command and gives the text of its answer. -/
def execute (parser : Parser) (d : Disk) (format : Format) : Invocation → Outcome Failure String
  | .locate file position =>
    ⟨(Command.locate parser d file position).map fun a => a.toJson.emit, d⟩
  | .references file position =>
    ⟨(Command.references parser d file position).map fun a => a.toJson.emit, d⟩
  | .rename request =>
    (Command.rename parser d request).map fun a =>
      match format with
      | .json => a.toJson.emit
      | .text => a.patch.unifiedDiff
  | .applyPlan file plan dryRun =>
    (Command.applyPlan parser d file plan dryRun).map fun a =>
      match format, a.newText with
      | .json, _ => a.toJson.emit
      | .text, some text => text
      | .text, none => s!"applied {a.summary.editsCount} edit(s) to {a.file}\n"
  | .enclosing file position kind =>
    ⟨(Command.enclosing parser d file position kind).map fun a => a.toJson.emit, d⟩
  | .check target => ⟨(Command.check parser d target).map fun a => a.toJson.emit, d⟩
  | .mainClass root => ⟨(Command.mainClass parser d root).map fun a => a.toJson.emit, d⟩
  | .createFile request => (Command.createFile d request).map fun a => a.toJson.emit

/-- Ends a run. -/
def finish (o : Outcome Failure String) : Finished :=
  match o.result with
  | .ok text => ⟨0, text, o.disk⟩
  | .error (.aborted cause) => ⟨(Failure.aborted cause).code, "", o.disk⟩
  | .error f => ⟨f.code, f.toJson.emit, o.disk⟩

/-- Runs a command line. -/
def run (parser : Parser) (d : Disk) (args : List String) : Finished :=
  match parse args with
  | .run invocation format => finish (execute parser d format invocation)
  | .version => ⟨0, "presso 0.1.0\n", d⟩
  | .help => ⟨0, "", d⟩
  | .refused => ⟨FailureClass.invalidArguments.code, "", d⟩

end JavaRefactor.CommandLine
