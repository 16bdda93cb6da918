import JavaRefactor.Path

/-! # Disks

A disk holds directories and files at places, which are lists of names from the root
down. Paths are followed from the working directory, or from the root if they are
absolute, and each step leads through a directory that exists. Names and paths have a
greatest length, and no path holds the null character.
-/

namespace JavaRefactor

/-- The names from the root down to a directory or file. -/
abbrev Place := List String

/-- What stands at a place. -/
inductive Entry where
  | directory
  | file (bytes : ByteArray)

namespace Entry

def isDirectory : Entry → Bool
  | directory => true
  | file _ => false

/-- Both are directories, or files with the same bytes. -/
def same : Entry → Entry → Bool
  | directory, directory => true
  | file a, file b => a.data.toList == b.data.toList
  | _, _ => false

end Entry

/-- Why the disk refuses something. -/
inductive DiskError where
  | notFound
  | busy
  | fileExists
  | notDirectory
  | isDirectory
  /-- The null character stands in the path of a file that is to be named. -/
  | invalidArgument
  /-- A name, or the whole path, is too long. -/
  | nameTooLong
  /-- The null character stands in a path. -/
  | nullInPath
  /-- The bytes of a file are not text. -/
  | notText
  deriving DecidableEq, Repr

namespace DiskError

def message : DiskError → String
  | notFound => "No such file or directory (os error 2)"
  | busy => "Device or resource busy (os error 16)"
  | fileExists => "File exists (os error 17)"
  | notDirectory => "Not a directory (os error 20)"
  | isDirectory => "Is a directory (os error 21)"
  | invalidArgument => "Invalid argument (os error 22)"
  | nameTooLong => "File name too long (os error 36)"
  | nullInPath => "file name contained an unexpected NUL byte"
  | notText => "stream did not contain valid UTF-8"

end DiskError

/-- The entries of a disk, all below the root, and the working directory. -/
structure Disk where
  entries : List (Place × Entry)
  here : Place
  /-- Whether the directory at a place, when it is read, gives a name before another one. The
  system decides on this, and not by the names. -/
  precedes : Place → String → String → Bool

namespace Disk

/-- The entry at a place. The root is a directory. -/
def entryAt? (d : Disk) (place : Place) : Option Entry :=
  if place = [] then some .directory else d.entries.lookup place

/-- Puts an entry at a place. -/
def put (d : Disk) (place : Place) (entry : Entry) : Disk :=
  { d with entries := (place, entry) :: d.entries.filter fun e => e.1 != place }

/-- The segments of a path as names. -/
def namesOf (path : String) : List String := (Path.segments path.toList).map String.ofList

/-- The segment stays where it is. -/
def isVoidName (name : String) : Bool := name == "" || name == "."

/-- The greatest number of bytes in a name. -/
def nameLimit : Nat := 255

/-- Paths have fewer bytes than this. -/
def pathLimit : Nat := 4096

def isLongName (name : String) : Bool := nameLimit < name.utf8ByteSize

/-- The null character stands in the path. -/
def hasNull (path : String) : Bool := path.toList.contains '\x00'

/-- Refuses a path that leads nowhere on any disk. -/
def checkPath (path : String) : Except DiskError Unit :=
  if hasNull path then .error .nullInPath
  else if pathLimit ≤ path.utf8ByteSize then .error .nameTooLong
  else .ok ()

/-- The place where a path starts. -/
def start (d : Disk) (path : String) : Place :=
  if Path.isAbsolute path.toList then [] else d.here

/-- Follows names from a place. The last of them need not exist. -/
def follow (d : Disk) (place : Place) : List String → Except DiskError Place
  | [] => .ok place
  | name :: names =>
    match d.entryAt? place with
    | none => .error .notFound
    | some (.file _) => .error .notDirectory
    | some .directory =>
      if isVoidName name then d.follow place names
      else if name = ".." then d.follow place.dropLast names
      else if isLongName name then .error .nameTooLong
      else d.follow (place ++ [name]) names

/-- The place of a path. -/
def placeOf (d : Disk) (path : String) : Except DiskError Place := do
  checkPath path
  if path = "" then throw .notFound
  d.follow (d.start path) (namesOf path)

/-- What stands at a place. -/
def entryAt (d : Disk) (place : Place) : Except DiskError Entry :=
  match d.entryAt? place with
  | none => .error .notFound
  | some entry => .ok entry

/-- The place of a path and what stands there. -/
def find (d : Disk) (path : String) : Except DiskError (Place × Entry) := do
  let place ← d.placeOf path
  return (place, ← d.entryAt place)

def isDirectory (d : Disk) (path : String) : Bool :=
  match d.find path with
  | .ok (_, .directory) => true
  | _ => false

def isFile (d : Disk) (path : String) : Bool :=
  match d.find path with
  | .ok (_, .file _) => true
  | _ => false

/-- Something stands at the path. -/
def holds (d : Disk) (path : String) : Bool := (d.find path).toOption.isSome

/-- The text of a file. -/
def read (d : Disk) (path : String) : Except DiskError String := do
  match ← d.find path with
  | (_, .directory) => throw .isDirectory
  | (_, .file bytes) =>
    match String.fromUTF8? bytes with
    | none => throw .notText
    | some text => return text

end Disk

end JavaRefactor
