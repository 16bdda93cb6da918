import JavaRefactor.Text.Utf8

/-! # Lines and columns

Lines and columns count from one. A column counts characters; only the byte
positions, which diffs are cut by, count bytes. From an offset there is always a
position, that of the end of the text for an offset past it. From a position
there is an offset only if the position is one of the text's own.
-/

namespace JavaRefactor

/-- A line and a column in it, both counted from one. -/
structure Position where
  line : Nat
  col : Nat
  deriving DecidableEq, Repr, Inhabited

namespace Position

/-- The beginning of a text. -/
def first : Position := ⟨1, 1⟩

/-- The position after a character. -/
def advance (p : Position) (c : Char) : Position :=
  if c = '\n' then ⟨p.line + 1, 1⟩ else ⟨p.line, p.col + 1⟩

/-- The position `bytes` further on. A character that is reached at all is passed
as a whole. -/
def walk (p : Position) : Nat → List Char → Position
  | 0, _ => p
  | _ + 1, [] => p
  | n + 1, c :: cs => walk (p.advance c) (n + 1 - c.utf8Size) cs

/-- The position of a byte offset. -/
def ofOffset (text : String) (offset : Nat) : Position := first.walk offset text.toList

/-- The position `bytes` further on, with columns that count bytes. -/
def walkBytes (p : Position) : Nat → List Char → Position
  | 0, _ => p
  | _ + 1, [] => p
  | n + 1, c :: cs =>
    let next : Position :=
      if c = '\n' then ⟨p.line + 1, 1⟩ else ⟨p.line, p.col + min (n + 1) c.utf8Size⟩
    walkBytes next (n + 1 - c.utf8Size) cs

/-- The position of a byte offset, with a column that counts bytes. -/
def ofOffsetInBytes (text : String) (offset : Nat) : Position :=
  first.walkBytes offset text.toList

def display (p : Position) : String := s!"{p.line}:{p.col}"

end Position

namespace Text

/-- The offsets right after the line breaks of a text that begins at `offset`. -/
def startsAfterBreaks (offset : Nat) : List Char → List Nat
  | [] => []
  | c :: cs =>
    let next := offset + c.utf8Size
    if c = '\n' then next :: startsAfterBreaks next cs else startsAfterBreaks next cs

/-- The offsets at which the lines of a text start. A text that ends in a line
break has an empty last line. -/
def lineStarts (text : String) : List Nat := 0 :: startsAfterBreaks 0 text.toList

/-- The first and last line that a span touches. An empty span touches the line
it stands in. -/
def lineRange (text : String) (span : Span) : Nat × Nat :=
  ((Position.ofOffsetInBytes text span.start).line,
    (Position.ofOffsetInBytes text (max (span.stop - 1) span.start)).line)

/-- The bytes that the first `count` characters of the first line take, none if
the line is shorter. -/
def columnWidth? : Nat → List Char → Option Nat
  | 0, _ => some 0
  | _ + 1, [] => none
  | n + 1, c :: cs => if c = '\n' then none else (columnWidth? n cs).map (c.utf8Size + ·)

end Text

namespace Position

/-- The byte offset of a position: of a character, or of the end of a line. -/
def toOffset? (p : Position) (text : String) : Option Nat :=
  match p.line, p.col with
  | line + 1, col + 1 =>
    match (Text.lineStarts text)[line]? with
    | none => none
    | some start =>
      match Text.splitAt? text.toList start with
      | none => none
      | some (_, rest) => (Text.columnWidth? col rest).map (start + ·)
  | _, _ => none

end Position

end JavaRefactor
