import JavaRefactor.Text.Split

/-! # Paths

Paths are texts with slashes. Empty segments and single dots carry no meaning, except
for a dot at the very beginning; asking for a part of a path looks through them, while
joining keeps a path as it is written.
-/

namespace JavaRefactor.Path

/-- A meaningful part of a path. -/
inductive Component where
  | root
  | here
  | up
  | normal (name : List Char)
  deriving DecidableEq, Repr

/-- The segments between the slashes of a path. -/
def segments (path : List Char) : List (List Char) := Text.split '/' path

def isAbsolute (path : List Char) : Bool := path.head? == some '/'

/-- The segment carries no meaning inside a path. -/
def isVoid (segment : List Char) : Bool := segment == [] || segment == ['.']

def ofSegment (segment : List Char) : Component :=
  if segment = ['.', '.'] then .up else .normal segment

/-- The meaningful parts of a path, in order. -/
def components (path : String) : List Component :=
  let cs := path.toList
  let parts := segments cs
  let body := (parts.filter fun s => !isVoid s).map ofSegment
  if isAbsolute cs then .root :: body
  else if parts.head? == some ['.'] then .here :: body
  else body

/-- Removes what follows the last meaningful segment. Segments stand last first. -/
def trimRight (rev : List (List Char)) : List (List Char) := rev.dropWhile isVoid

/-- Joins segments, given last first, with slashes. -/
def joinSegments (rev : List (List Char)) : List Char :=
  match rev.reverse with
  | [] => []
  | first :: rest => first ++ rest.flatMap fun s => '/' :: s

/-- The text before the last meaningful segment; none if there is no such segment. -/
def dropLast? (segments : List (List Char)) : Option (List Char) :=
  match trimRight segments.reverse with
  | [] => none
  | _ :: rest => some (joinSegments (trimRight rest))

/-- The path without its last component; none if the path has no component, or only the
root. -/
def parent? (path : String) : Option String :=
  let cs := path.toList
  let above :=
    match cs, segments cs with
    | '/' :: body, _ => (dropLast? (segments body)).map ('/' :: ·)
    | _, ['.'] :: rest =>
      match dropLast? rest with
      | none => some []
      | some [] => some ['.']
      | some left => some ('.' :: '/' :: left)
    | _, all => dropLast? all
  above.map String.ofList

/-- The last component, if it is a name. -/
def fileName? (path : String) : Option String :=
  match (components path).getLast? with
  | some (.normal name) => some (String.ofList name)
  | _ => none

/-- Stem and extension of a file name. A dot at the beginning does not divide it. -/
def splitExtension (name : String) : String × Option String :=
  let cs := name.toList
  let after := (cs.reverse.takeWhile (· != '.')).reverse
  match cs.reverse.dropWhile (· != '.') with
  | [] => (name, none)
  | [_] => (name, none)
  | _ :: before => (String.ofList before.reverse, some (String.ofList after))

/-- The file name up to its last dot. -/
def stem? (path : String) : Option String :=
  (fileName? path).map fun name => (splitExtension name).1

/-- The file name behind its last dot. -/
def extension? (path : String) : Option String :=
  (fileName? path).bind fun name => (splitExtension name).2

/-- Goes on from a path. An absolute path begins anew. -/
def join (path next : String) : String :=
  if isAbsolute next.toList then next
  else if path == "" || path.toList.getLast? == some '/' then path ++ next
  else path ++ "/" ++ next

/-- Puts another file name in the place of the last component, or behind a path that has no
file name. -/
def withFileName (path name : String) : String :=
  match fileName? path, parent? path with
  | some _, some above => join above name
  | _, _ => join path name

/-- The last components of a path are those of another. -/
def endsWith (path tail : String) : Bool :=
  (components tail).reverse.isPrefixOf (components path).reverse

namespace Component

def rank : Component → Nat
  | root => 0
  | here => 1
  | up => 2
  | normal _ => 3

/-- The order of single components: names by their characters, behind all others. -/
def lt : Component → Component → Bool
  | normal a, normal b => String.ofList a < String.ofList b
  | a, b => a.rank < b.rank

end Component

/-- The order of paths by their components. -/
def leComponents : List Component → List Component → Bool
  | [], _ => true
  | _ :: _, [] => false
  | a :: as, b :: bs => a.lt b || (a == b && leComponents as bs)

def le (a b : String) : Bool := leComponents (components a) (components b)

end JavaRefactor.Path
