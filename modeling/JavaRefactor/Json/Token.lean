import JavaRefactor.Text.Decimal

/-! # Tokens of JSON

A JSON text is a sequence of brackets, commas, colons, strings and bare words,
with blanks between them. A string may name half of a surrogate pair; it is then a
token without a text.
-/

namespace JavaRefactor.Json

inductive Token where
  | openList
  | closeList
  | openObject
  | closeObject
  | comma
  | colon
  /-- A string, with no text if an escape in it stands for no character. -/
  | text (s : Option String)
  /-- A name such as `true`, or a number. -/
  | word (cs : List Char)
  deriving DecidableEq, Repr

namespace Token

def isBlank (c : Char) : Bool := c = ' ' || c = '\t' || c = '\n' || c = '\r'

/-- Characters of bare words. -/
def isWordChar (c : Char) : Bool := c.isAlphanum || c = '-' || c = '+' || c = '.'

/-- A token that is one character. -/
def mark? : Char → Option Token
  | '[' => some openList
  | ']' => some closeList
  | '\x7b' => some openObject
  | '\x7d' => some closeObject
  | ',' => some comma
  | ':' => some colon
  | _ => none

def isHighSurrogate (n : Nat) : Bool := 0xD800 ≤ n && n < 0xDC00

def isLowSurrogate (n : Nat) : Bool := 0xDC00 ≤ n && n < 0xE000

/-- The characters that a sequence of code units stands for. A high surrogate joins
with the low surrogate right behind it; alone, neither stands for a character. -/
def decodeUnits : List Nat → Option (List Char)
  | [] => some []
  | [n] => if isHighSurrogate n || isLowSurrogate n then none else some [Char.ofNat n]
  | n :: m :: rest =>
    if isHighSurrogate n then
      if isLowSurrogate m then
        (decodeUnits rest).map (Char.ofNat (0x10000 + (n - 0xD800) * 0x400 + (m - 0xDC00)) :: ·)
      else none
    else if isLowSurrogate n then none
    else (decodeUnits (m :: rest)).map (Char.ofNat n :: ·)

/-- The character that a letter behind a backslash stands for. -/
def escaped? : Char → Option Char
  | '"' => some '"'
  | '\\' => some '\\'
  | '/' => some '/'
  | 'b' => some '\x08'
  | 'f' => some '\x0c'
  | 'n' => some '\n'
  | 'r' => some '\r'
  | 't' => some '\t'
  | _ => none

/-- The value of a hexadecimal digit. -/
def hexDigit? (c : Char) : Option Nat :=
  if '0' ≤ c ∧ c ≤ '9' then some (c.toNat - '0'.toNat)
  else if 'a' ≤ c ∧ c ≤ 'f' then some (c.toNat - 'a'.toNat + 10)
  else if 'A' ≤ c ∧ c ≤ 'F' then some (c.toNat - 'A'.toNat + 10)
  else none

/-- Where the scan of a text stands. Code units of a string are kept last first. -/
inductive Scan where
  | between
  | inWord (rev : List Char)
  | inText (rev : List Nat)
  | inEscape (rev : List Nat)
  | inHex (rev : List Nat) (left value : Nat)

/-- The scan behind a character, and the tokens that the character completes. -/
def next (scan : Scan) (c : Char) : Option (Scan × List Token) :=
  let fresh (done : List Token) : Option (Scan × List Token) :=
    if isBlank c then some (.between, done)
    else if isWordChar c then some (.inWord [c], done)
    else if c = '"' then some (.inText [], done)
    else (mark? c).map fun token => (.between, done ++ [token])
  match scan with
  | .between => fresh []
  | .inWord rev =>
    if isWordChar c then some (.inWord (c :: rev), []) else fresh [word rev.reverse]
  | .inText rev =>
    if c = '"' then some (.between, [text ((decodeUnits rev.reverse).map String.ofList)])
    else if c = '\\' then some (.inEscape rev, [])
    else if c.toNat < 0x20 then none
    else some (.inText (c.toNat :: rev), [])
  | .inEscape rev =>
    if c = 'u' then some (.inHex rev 3 0, [])
    else (escaped? c).map fun e => (.inText (e.toNat :: rev), [])
  | .inHex rev left value =>
    (hexDigit? c).map fun d =>
      match left with
      | 0 => (.inText ((16 * value + d) :: rev), [])
      | left + 1 => (.inHex rev left (16 * value + d), [])

/-- The tokens of a text whose scan stands at `scan`. -/
def scanFrom (scan : Scan) : List Char → Option (List Token)
  | [] =>
    match scan with
    | .between => some []
    | .inWord rev => some [word rev.reverse]
    | _ => none
  | c :: cs =>
    match next scan c with
    | none => none
    | some (scan, tokens) => (scanFrom scan cs).map (tokens ++ ·)

/-- The tokens of a text. -/
def scan? (cs : List Char) : Option (List Token) := scanFrom .between cs

end Token

end JavaRefactor.Json
