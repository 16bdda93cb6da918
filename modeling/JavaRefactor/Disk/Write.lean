import JavaRefactor.Disk.Outcome
import JavaRefactor.Failure

/-! # Changing a disk

A file is replaced as a whole: its new text is first written beside it, so the
directory has to exist, and then takes its name, so that nothing but a file may stand
there.
-/

namespace JavaRefactor

/-- Why a file was not written. -/
inductive WriteError where
  | noDirectory (path : String)
  | device (path : String) (error : DiskError)
  deriving DecidableEq, Repr

namespace WriteError

def path : WriteError → String
  | noDirectory path | device path _ => path

def message : WriteError → String
  | noDirectory path => s!"cannot determine the directory of {path}"
  | device path error => s!"cannot write {path}: {error.message}"

def toFailure (e : WriteError) : Failure := .apply e.message (some e.path)

end WriteError

namespace Disk

/-- The directory at a place. -/
def directoryAt (d : Disk) (place : Place) : Except DiskError Place := do
  match ← d.entryAt place with
  | .file _ => throw .notDirectory
  | .directory => return place

/-- A path that is split before its last name. -/
structure FileName where
  /-- The names that lead to the directory of the file. -/
  directories : List String
  name : String
  /-- Slashes follow the name. -/
  isClosed : Bool
  deriving DecidableEq, Repr

namespace FileName

def of (path : String) : FileName :=
  let reversed := (namesOf path).reverse
  let isClosed := reversed.head? == some ""
  match reversed.dropWhile (· == "") with
  | [] => ⟨[], "", isClosed⟩
  | name :: directories => ⟨directories.reverse, name, isClosed⟩

end FileName

/-- The place where a file can take a path as its name. A path that ends in dots names a
directory that is in use, and one that ends in a slash cannot name a file. -/
def placeFor (d : Disk) (path : String) : Except DiskError Place := do
  if hasNull path then throw .invalidArgument
  checkPath path
  let file := FileName.of path
  let directory ← d.directoryAt (← d.follow (d.start path) file.directories)
  if isVoidName file.name || file.name == ".." then throw .busy
  if isLongName file.name then throw .nameTooLong
  if file.isClosed then throw .notDirectory
  let place := directory ++ [file.name]
  match d.entryAt? place with
  | some .directory => throw .isDirectory
  | _ => return place

/-- The place of a file whose text was first written into a directory. -/
def target (d : Disk) (directory path : String) : Except DiskError Place := do
  let _ ← d.directoryAt (← d.placeOf directory)
  d.placeFor path

/-- Replaces the text of a file, or adds the file. -/
def write (d : Disk) (path text : String) : Except WriteError Disk :=
  match Path.parent? path with
  | none => .error (.noDirectory path)
  | some parent =>
    match d.target (if parent = "" then "." else parent) path with
    | .error e => .error (.device path e)
    | .ok place => .ok (d.put place (.file text.toUTF8))

/-- Makes the directories that names lead to from a place, which is a directory. -/
def makeBelow (d : Disk) (place : Place) : List String → Outcome DiskError Unit
  | [] => ⟨.ok (), d⟩
  | name :: names =>
    if isVoidName name then d.makeBelow place names
    else if name = ".." then d.makeBelow place.dropLast names
    else if isLongName name then ⟨.error .nameTooLong, d⟩
    else
      let next := place ++ [name]
      match d.entryAt? next with
      | some .directory => d.makeBelow next names
      | some (.file _) => ⟨.error (if names.all isVoidName then .fileExists else .notDirectory), d⟩
      | none => (d.put next .directory).makeBelow next names

/-- Makes a directory and those above it as far as they are missing. -/
def makeDirectories (d : Disk) (path : String) : Outcome DiskError Unit :=
  match checkPath path with
  | .error e => ⟨.error e, d⟩
  | .ok _ => d.makeBelow (d.start path) (namesOf path)

end Disk

end JavaRefactor
