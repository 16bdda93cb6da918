import JavaRefactor.Disk.Write

/-! # Differences between disks -/

namespace JavaRefactor.Disk

/-- A disk with nothing but an empty working directory. Its directories are read by name. -/
def blank : Disk := ⟨[(["work"], .directory)], ["work"], fun _ a b => a < b⟩

/-- Puts a file at a path, in directories that are made for it. -/
def store (d : Disk) (path : String) (bytes : ByteArray) : Except DiskError Disk := do
  let made ← (d.makeDirectories ((Path.parent? path).getD "")).complete
  let place ← made.placeOf path
  return made.put place (.file bytes)

/-- The entries that another disk does not have, or has otherwise, by place. -/
def newIn (before after : Disk) : List (Place × Entry) :=
  after.entries.filter fun e => !(before.entryAt? e.1).any e.2.same

/-- The places where another disk has nothing. -/
def goneFrom (before after : Disk) : List Place :=
  (before.entries.filter fun e => (after.entryAt? e.1).isNone).map (·.1)

/-- The path of a place below the working directory. -/
def display (d : Disk) (place : Place) : String := "/".intercalate (place.drop d.here.length)

end JavaRefactor.Disk
