import JavaRefactor.Analysis
import JavaRefactor.Answer.Document
import JavaRefactor.Disk.Write

/-! # Commands

A command reads files, asks one analysis, and may write files. It gives an answer or a
failure, and either way leaves a disk.
-/

namespace JavaRefactor

/-- Why a file was not analyzed. -/
inductive LoadError where
  | read (path : String) (error : DiskError)
  | analysis (path : String) (error : AnalysisError)
  deriving DecidableEq, Repr

namespace LoadError

/-- The failure of a command that needs the file. -/
def toFailure : LoadError → Failure
  | read path .notFound => .fileNotFound path
  | read path error => .internal s!"cannot read {path}: {error.message}"
  | analysis _ error => error.toFailure

def message : LoadError → String
  | read path error => s!"cannot read {path}: {error.message}"
  | analysis path (.parse error) => s!"cannot parse {path}: {error.reason}"
  | analysis path (.resolve .noScope) => s!"cannot resolve {path}"

end LoadError

namespace Command

/-- The text of a file. -/
def readText (d : Disk) (path : String) : Except Failure String :=
  match d.read path with
  | .error e => .error (LoadError.read path e).toFailure
  | .ok text => .ok text

/-- The analysis of a file. -/
def load (parser : Parser) (d : Disk) (path : String) : Except LoadError Analysis :=
  match d.read path with
  | .error e => .error (.read path e)
  | .ok source =>
    match Analysis.run parser path source with
    | .error e => .error (.analysis path e)
    | .ok a => .ok a

/-- The analysis of a file that a command needs. -/
def need (parser : Parser) (d : Disk) (path : String) : Except Failure Analysis :=
  match load parser d path with
  | .error e => .error e.toFailure
  | .ok a => .ok a

/-- The symbol at a position. -/
def symbolAt (a : Analysis) (position : Position) : Except Failure Symbol :=
  match a.locate position with
  | .error e => .error e.toFailure
  | .ok symbol => .ok symbol

/-- Writes a file. -/
def writeText (d : Disk) (path text : String) : Except Failure Disk :=
  match d.write path text with
  | .error e => .error e.toFailure
  | .ok written => .ok written

end Command

end JavaRefactor
