import JavaRefactor.Disk.Changes
import JavaRefactor.Hash.Sha256
import JavaRefactor.Json.Reader
import JavaRefactor.Tree.Raw

/-! # Snapshots

A snapshot describes, as JSON, the files that a command can see and the parse trees of
all texts that it may come to parse. Trees are kept by the hash of their text, each as
its rows.
-/

namespace JavaRefactor

namespace RawTree

/-- Reads a row: depth, start, end, flags, kind, and the field if there is one. -/
def rowOfJson? (value : Json) : Option Row := do
  let .arr items := value | none
  let depth :: start :: stop :: flags :: kind :: field := items | none
  let flags ← flags.natBelow? 8
  let label : Label := {
    grammar := ← kind.str?
    span := ⟨← start.word64?, ← stop.word64?⟩
    field := field.head?.bind Json.str?
    isNamed := flags.testBit 0
    isError := flags.testBit 1
    isMissing := flags.testBit 2 }
  return (← depth.word32?, label)

/-- Reads a tree from its rows. -/
def ofJson? (value : Json) : Option RawTree := (Json.list? rowOfJson? value).bind ofRows?

end RawTree

namespace Parser

/-- The parser that knows the trees of some texts by their hashes. -/
def ofTable (table : List (String × RawTree)) : Parser := fun text =>
  match table.lookup (ContentHash.ofText text).hex with
  | some tree => .ok tree
  | none => .error ⟨"parser produced no tree", some 0⟩

/-- Reads trees by hash. -/
def ofJson? : Json → Option Parser
  | .obj fields => do
    let table ← fields.mapM fun field => return (field.1, ← RawTree.ofJson? field.2)
    return ofTable table
  | _ => none

end Parser

namespace Snapshot

/-- The bytes that pairs of hexadecimal digits stand for. -/
def bytesOfHex? : List Char → Option (List UInt8)
  | [] => some []
  | [_] => none
  | a :: b :: rest => do
    let high ← Json.Token.hexDigit? a
    let low ← Json.Token.hexDigit? b
    return UInt8.ofNat (16 * high + low) :: (← bytesOfHex? rest)

/-- Reads a file: its path, and its contents as text or in hexadecimal digits. -/
def fileOfJson? (value : Json) : Option (String × ByteArray) := do
  let fields ← value.record? ["path", "text", "hex"] 0
  let path ← Json.required fields "path" Json.str?
  match ← Json.optional fields "text" Json.str? with
  | some text => return (path, text.toUTF8)
  | none =>
    let hex ← Json.required fields "hex" Json.str?
    let bytes ← bytesOfHex? hex.toList
    return (path, ⟨bytes.toArray⟩)

/-- A disk with some directories and files. -/
def disk? (directories : List String) (files : List (String × ByteArray)) : Option Disk :=
  let made := directories.foldlM (fun d path => (d.makeDirectories path).complete) Disk.blank
  let stored := made.bind fun d => files.foldlM (fun d file => d.store file.1 file.2) d
  stored.toOption

end Snapshot

/-- What a command can see. -/
structure Snapshot where
  disk : Disk
  parser : Parser

namespace Snapshot

def ofJson? (value : Json) : Option Snapshot := do
  let fields ← value.record? ["dirs", "files", "trees"] 0
  let directories ← Json.required fields "dirs" (Json.list? Json.str?)
  let files ← Json.required fields "files" (Json.list? fileOfJson?)
  let parser ← Json.required fields "trees" Parser.ofJson?
  let disk ← disk? directories files
  return ⟨disk, parser⟩

end Snapshot

end JavaRefactor
