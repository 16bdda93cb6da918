import JavaRefactor.Text.Span

/-! # Texts by bytes

Offsets count the bytes of the UTF-8 form of a text, while a text itself is a
list of characters. The functions here cut a list of characters at byte offsets;
a cut inside a character does not exist.
-/

namespace JavaRefactor.Text

/-- Number of bytes of the characters in UTF-8. -/
def width : List Char → Nat
  | [] => 0
  | c :: cs => c.utf8Size + width cs

/-- The characters before and from a byte offset; none if the offset lies inside
a character or past the end. -/
def splitAt? : List Char → Nat → Option (List Char × List Char)
  | cs, 0 => some ([], cs)
  | [], _ + 1 => none
  | c :: cs, n + 1 =>
    if c.utf8Size ≤ n + 1 then
      (splitAt? cs (n + 1 - c.utf8Size)).map fun parts => (c :: parts.1, parts.2)
    else none

/-- A text divided into what stands before, in and after a span. -/
structure Parts where
  before : List Char
  middle : List Char
  after : List Char

/-- Divides the characters at both ends of a span; none if the span is inverted,
reaches past the end or cuts a character. -/
def divide? (cs : List Char) (span : Span) : Option Parts :=
  if span.start ≤ span.stop then
    match splitAt? cs span.start with
    | none => none
    | some (before, rest) =>
      (splitAt? rest span.length).map fun parts => ⟨before, parts.1, parts.2⟩
  else none

/-- Puts `new` in the place of the characters of a span. -/
def splice? (cs : List Char) (span : Span) (new : List Char) : Option (List Char) :=
  (divide? cs span).map fun parts => parts.before ++ new ++ parts.after

/-- Number of bytes of a text. -/
def byteLength (s : String) : Nat := width s.toList

/-- The text of a span, if the span cuts the text between characters. -/
def slice? (s : String) (span : Span) : Option String :=
  (divide? s.toList span).map fun parts => String.ofList parts.middle

end JavaRefactor.Text
