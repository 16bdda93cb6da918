import JavaRefactor.CommandLine.Run
import JavaRefactor.Snapshot
import JavaRefactor.Sorting

/-! # The program

Arguments come from the command line and a snapshot of the files from standard input. The
answer goes to standard output, and files that the command changed are written.
-/

namespace JavaRefactor

/-- Writes a directory or file below the working directory. -/
def writeEntry (d : Disk) (place : Place) : Entry → IO Unit
  | .directory => IO.FS.createDirAll (d.display place)
  | .file bytes => IO.FS.writeBinFile (d.display place) bytes

/-- Runs a command line on a snapshot. -/
def runOn (snapshot : Snapshot) (args : List String) : IO UInt32 := do
  let finished := CommandLine.run snapshot.parser snapshot.disk args
  let changed := sortBy (fun a b => Place.le finished.disk.precedes [] a.1 b.1)
    (snapshot.disk.newIn finished.disk)
  for (place, entry) in changed do
    writeEntry finished.disk place entry
  IO.print finished.output
  return finished.code.toUInt32

end JavaRefactor

def main (args : List String) : IO UInt32 := do
  let line ← (← IO.getStdin).getLine
  match (JavaRefactor.Json.parse? line).bind JavaRefactor.Snapshot.ofJson? with
  | some snapshot => JavaRefactor.runOn snapshot args
  | none =>
    IO.eprintln "no snapshot on standard input"
    return 10
