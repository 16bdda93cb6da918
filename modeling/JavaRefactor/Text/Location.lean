import JavaRefactor.Text.Decimal
import JavaRefactor.Text.Position

/-! # Places in files

A location names a file and a position in it, and the bytes of the token it
stands for if there is one. Locations are written as `file:line:col`; a file name
may itself hold colons.
-/

namespace JavaRefactor

structure Location where
  file : String
  line : Nat
  col : Nat
  byteStart : Option Nat := none
  byteEnd : Option Nat := none
  deriving DecidableEq, Repr, Inhabited

namespace Text

/-- What stands before and after the last occurrence of a character. -/
def splitLast? (sep : Char) : List Char → Option (List Char × List Char)
  | [] => none
  | c :: cs =>
    match splitLast? sep cs with
    | some (before, after) => some (c :: before, after)
    | none => if c = sep then some ([], cs) else none

end Text

namespace Location

/-- The location of a span of a file's text. -/
def ofSpan (file text : String) (span : Span) : Location :=
  let position := Position.ofOffset text span.start
  ⟨file, position.line, position.col, some span.start, some span.stop⟩

/-- Reads `file:line:col`. -/
def parse? (s : String) : Option Location :=
  match Text.splitLast? ':' s.toList with
  | none => none
  | some (rest, col) =>
    match Text.splitLast? ':' rest with
    | none => none
    | some (file, line) =>
      match Decimal.below? Decimal.word32 col, Decimal.below? Decimal.word32 line with
      | some col, some line => some ⟨String.ofList file, line, col, none, none⟩
      | _, _ => none

/-- The order by file, line and column. -/
def le (a b : Location) : Bool :=
  a.file < b.file ||
    (a.file == b.file && (a.line < b.line || (a.line == b.line && a.col ≤ b.col)))

/-- Both locations stand at the same place of the same file. -/
def samePlace (a b : Location) : Bool := a.file == b.file && a.line == b.line && a.col == b.col

end Location

end JavaRefactor
