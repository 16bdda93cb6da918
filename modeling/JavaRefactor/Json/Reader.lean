import JavaRefactor.Json.Basic
import JavaRefactor.Json.Token

/-! # Reading JSON

Tokens are fed one by one to a machine that keeps the unfinished arrays and
objects around the value it is reading.
-/

namespace JavaRefactor.Json

/-- An unfinished array, or an unfinished object with the name of the field that is
being read. A name that has no text spoils its object. -/
inductive Frame where
  | list (before : List Json)
  | record (before : List (Option String × Json)) (name : Option String)

/-- What may come next. The list holds the unfinished frames, innermost first. -/
inductive Reading where
  /-- A value. -/
  | value (frames : List Frame)
  /-- The first item of an array or its end. -/
  | item (frames : List Frame)
  /-- The first name of an object or its end. -/
  | field (frames : List Frame)
  /-- A name, behind the fields of its object that were read before. -/
  | name (before : List (Option String × Json)) (frames : List Frame)
  /-- The colon behind a name. -/
  | colon (before : List (Option String × Json)) (name : Option String) (frames : List Frame)
  /-- What follows a value that has been read. -/
  | after (value : Json) (frames : List Frame)

/-- The object with the given fields. -/
def ofFields (fields : List (Option String × Json)) : Json :=
  match fields.mapM fun field => field.1.map fun name => (name, field.2) with
  | some fields => .obj fields
  | none => .other

/-- The part of a number before its fraction and exponent: one digit, or more of which
the first is not a zero. -/
def isWhole (cs : List Char) : Bool :=
  match cs with
  | [] => false
  | ['0'] => true
  | '0' :: _ => false
  | cs => cs.all Char.isDigit

/-- One digit or more, and nothing else. -/
def isDigits (cs : List Char) : Bool := !cs.isEmpty && cs.all Char.isDigit

/-- A fraction and an exponent, each of which may be missing. -/
def isTail (cs : List Char) : Bool :=
  let exponent (cs : List Char) : Bool :=
    match cs with
    | '+' :: rest => isDigits rest
    | '-' :: rest => isDigits rest
    | rest => isDigits rest
  let marks (c : Char) : Bool := c = 'e' || c = 'E'
  match cs with
  | '.' :: rest =>
    let fraction := rest.takeWhile fun c => !marks c
    match rest.dropWhile fun c => !marks c with
    | [] => isDigits fraction
    | _ :: power => isDigits fraction && exponent power
  | c :: power => marks c && exponent power
  | [] => true

/-- The value of a number. Only a plain run of digits, with a minus sign unless the number
is zero, is an integer. -/
def number? (cs : List Char) : Option Json :=
  let negative := cs.head? = some '-'
  let body := if negative then cs.drop 1 else cs
  let whole := body.takeWhile Char.isDigit
  let tail := body.dropWhile Char.isDigit
  if isWhole whole && isTail tail then
    match tail, Decimal.natural? whole with
    | [], some n =>
      if negative then some (if n = 0 then .other else .int (-n)) else some (.int n)
    | _, _ => some .other
  else none

/-- The value of a bare word. -/
def word? (cs : List Char) : Option Json :=
  if cs = "null".toList then some .null
  else if cs = "true".toList then some (.bool true)
  else if cs = "false".toList then some (.bool false)
  else number? cs

namespace Reading

/-- Reads the first token of a value. -/
def startValue (frames : List Frame) : Token → Option Reading
  | .openList => some (.item frames)
  | .openObject => some (.field frames)
  | .text (some s) => some (.after (.str s) frames)
  | .text none => some (.after .other frames)
  | .word cs => (word? cs).map (.after · frames)
  | _ => none

/-- The state behind a token. -/
def feed : Reading → Token → Option Reading
  | .value frames, token => startValue frames token
  | .item frames, .closeList => some (.after (.arr []) frames)
  | .item frames, token => startValue (.list [] :: frames) token
  | .field frames, .closeObject => some (.after (.obj []) frames)
  | .field frames, .text s => some (.colon [] s frames)
  | .name before frames, .text s => some (.colon before s frames)
  | .colon before key frames, .colon => some (.value (.record before key :: frames))
  | .after v (.list before :: frames), .comma =>
    some (.value (.list (before ++ [v]) :: frames))
  | .after v (.list before :: frames), .closeList =>
    some (.after (.arr (before ++ [v])) frames)
  | .after v (.record before key :: frames), .comma =>
    some (.name (before ++ [(key, v)]) frames)
  | .after v (.record before key :: frames), .closeObject =>
    some (.after (ofFields (before ++ [(key, v)])) frames)
  | _, _ => none

/-- The value that was read, if nothing is unfinished. -/
def result? : Reading → Option Json
  | .after v [] => some v
  | _ => none

/-- The value that the tokens complete. -/
def run? (reading : Reading) : List Token → Option Json
  | [] => reading.result?
  | token :: tokens =>
    match reading.feed token with
    | none => none
    | some next => run? next tokens

end Reading

/-- Reads a text that is one value. -/
def parse? (text : String) : Option Json :=
  (Token.scan? text.toList).bind (Reading.run? (.value []))

end JavaRefactor.Json
