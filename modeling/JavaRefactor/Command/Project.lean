import JavaRefactor.Command.Basic
import JavaRefactor.Project.Layout

/-! # Commands about many files

Checks of files, the search for the main class, and new files.
-/

namespace JavaRefactor.Command

/-- What is to be checked. -/
inductive CheckTarget where
  | file (path : String)
  /-- All Java files below a directory. -/
  | directory (path : String)
  deriving DecidableEq, Repr

/-- The files that a check looks at. -/
def CheckTarget.files (d : Disk) : CheckTarget → Except Failure (List String)
  | .file path => if d.isFile path then .ok [path] else .error (.fileNotFound path)
  | .directory path =>
    if d.isDirectory path then .ok (Project.javaFiles d path) else .error (.fileNotFound path)

/-- The check of a file that was analyzed. -/
def checkOf (path : String) (a : Analysis) : FileCheck :=
  { file := path
    analyzed := true
    errorRegions := a.tree.errorRegions.length
    symbols := a.names.symbols.size
    package := a.tree.packageName?
    warnings := a.fileWarnings }

/-- The check of a file that could not be read. -/
def unreadable (path : String) (error : LoadError) : FileCheck :=
  { file := path
    analyzed := false
    errorRegions := 0
    symbols := 0
    package := none
    warnings := [{ code := "not_analyzed", message := error.message }] }

/-- Checks one file. -/
def checkFile (parser : Parser) (d : Disk) (path : String) : Except Failure FileCheck :=
  match load parser d path with
  | .ok a => .ok (checkOf path a)
  | .error (.analysis _ (.resolve e)) => .error (AnalysisError.resolve e).toFailure
  | .error e => .ok (unreadable path e)

/-- Checks files. -/
def check (parser : Parser) (d : Disk) (target : CheckTarget) : Except Failure CheckAnswer := do
  let files ← target.files d
  let checks ← files.mapM (checkFile parser d)
  return .ofChecks checks

/-- The first of some files that declares a main class. Files that cannot be read are
passed over. -/
def firstMain? (parser : Parser) (d : Disk) : List String → Except Failure (Option Analysis)
  | [] => .ok none
  | path :: rest =>
    match load parser d path with
    | .ok a => if a.tree.declaresMain then .ok (some a) else firstMain? parser d rest
    | .error (.analysis _ (.resolve e)) => .error (AnalysisError.resolve e).toFailure
    | .error _ => firstMain? parser d rest

/-- The file below a directory that declares the main class. -/
def mainClass (parser : Parser) (d : Disk) (root : String) : Except Failure MainClassAnswer := do
  if !d.isDirectory root then throw (.fileNotFound root)
  match ← firstMain? parser d (Project.javaFiles d root) with
  | none => throw (.invalidArguments s!"no main class found under {root}" none)
  | some a =>
    match a.tree.packageName? with
    | some package => return ⟨a.path, package⟩
    | none =>
      throw (.invalidArguments
        s!"main class found in {a.path}, but its package name could not be determined" none)

/-- What a new file is to be. -/
structure NewFileRequest where
  root : String
  package : String
  fileName : String
  template : Template
  tree : SourceTree
  deriving DecidableEq, Repr

/-- Adds a file for a new type. A file that exists is left alone; the directory of its
package may then be new all the same. -/
def createFile (d : Disk) (request : NewFileRequest) : Outcome Failure NewFileAnswer :=
  let prepared := Project.newFile d request.root request.package request.fileName request.template
    request.tree
  let made := prepared.disk
  match prepared.result with
  | .error f => ⟨.error f, made⟩
  | .ok file =>
    if made.holds file.path then
      ⟨.error (.invalidArguments s!"{file.path} already exists" none), made⟩
    else
      match writeText made file.path file.contents with
      | .error f => ⟨.error f, made⟩
      | .ok written => ⟨.ok ⟨file.path⟩, written⟩

end JavaRefactor.Command
