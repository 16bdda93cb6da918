import JavaRefactor.Disk.Basic
import JavaRefactor.Sorting

/-! # Walking through a disk

All entries below a directory, a directory before its entries and these in the order in which it
gives them.
-/

namespace JavaRefactor

namespace Place

/-- The order of the places below one, by the order of the names in each directory. A directory
comes before what it holds. -/
def le (precedes : Place → String → String → Bool) (above : Place) : Place → Place → Bool
  | [], _ => true
  | _ :: _, [] => false
  | a :: as, b :: bs => if a = b then le precedes (above ++ [a]) as bs else precedes above a b

end Place

/-- An entry found on a walk. -/
structure Visit where
  /-- The names from the start of the walk. -/
  names : List String
  entry : Entry

namespace Visit

def isDirectory (v : Visit) : Bool := v.entry.isDirectory

def isFile (v : Visit) : Bool := !v.entry.isDirectory

/-- The names of the directories that the walk came through to an entry. -/
def directories (v : Visit) : List String :=
  if v.isDirectory then v.names else v.names.dropLast

/-- The path of the entry, for a walk that starts at a path. -/
def path (start : String) (v : Visit) : String := v.names.foldl Path.join start

end Visit

namespace Disk

/-- The entry at a place and all entries below it. -/
def visits (d : Disk) (place : Place) : List Visit :=
  let below := d.entries.filter fun e => place.isPrefixOf e.1
  let all := if place = [] then ([], .directory) :: below else below
  (sortBy (fun a b => Place.le d.precedes [] a.1 b.1) all).map fun e => ⟨e.1.drop place.length, e.2⟩

/-- The walk that starts at a path; empty if nothing stands there. -/
def walk (d : Disk) (start : String) : List Visit :=
  match d.find start with
  | .error _ => []
  | .ok (place, _) => d.visits place

end Disk

end JavaRefactor
