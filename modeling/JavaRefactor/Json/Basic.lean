import JavaRefactor.Text.Decimal

/-! # JSON values

Answers are written as JSON and plans are read back from it. The only numbers in
use are integers. A record is an object with known names; it may also come as an
array of its fields in their order.
-/

namespace JavaRefactor

/-- A JSON value. Objects keep their fields in order and may repeat a name. -/
inductive Json where
  | null
  | bool (b : Bool)
  | int (n : Int)
  | str (s : String)
  | arr (items : List Json)
  | obj (fields : List (String × Json))
  /-- A well-formed value that nothing here can use: a number that is not an integer, or
  one that holds text with half of a surrogate pair. -/
  | other
  deriving Repr, Inhabited

namespace Json

def nat (n : Nat) : Json := .int n

/-- A field that is left out if it has no value. -/
def field? (name : String) (encode : α → Json) : Option α → List (String × Json)
  | none => []
  | some a => [(name, encode a)]

def str? : Json → Option String
  | .str s => some s
  | _ => none

def bool? : Json → Option Bool
  | .bool b => some b
  | _ => none

/-- A non-negative integer below `bound`. -/
def natBelow? (bound : Nat) : Json → Option Nat
  | .int (.ofNat n) => if n < bound then some n else none
  | _ => none

/-- A line, a column or a count. -/
def word32? : Json → Option Nat := natBelow? Decimal.word32

/-- A length or an offset. -/
def word64? : Json → Option Nat := natBelow? Decimal.word64

/-- A signed number of 64 bits. -/
def signed64? : Json → Option Int
  | .int n => if -Decimal.halfWord64 ≤ n ∧ n < Decimal.halfWord64 then some n else none
  | _ => none

/-- Every item of a list of values. -/
def list? (decode : Json → Option α) : Json → Option (List α)
  | .arr items => items.mapM decode
  | _ => none

/-- The fields of a record with the given names. Of an object the other fields are
ignored, and no name may stand twice. An array holds the fields in their order and may
leave off the last `droppable` of them. -/
def record? (names : List String) (droppable : Nat) : Json → Option (List (String × Json))
  | .obj fields =>
    let known := fields.filter fun field => names.contains field.1
    if (known.map (·.1)).Nodup then some known else none
  | .arr items =>
    if names.length ≤ items.length + droppable ∧ items.length ≤ names.length then
      some (names.zip items)
    else none
  | _ => none

/-- A field that must be there. -/
def required (fields : List (String × Json)) (name : String) (decode : Json → Option α) :
    Option α :=
  (fields.lookup name).bind decode

/-- A field that may be missing or null. -/
def optional (fields : List (String × Json)) (name : String) (decode : Json → Option α) :
    Option (Option α) :=
  match fields.lookup name with
  | none => some none
  | some .null => some none
  | some value => (decode value).map some

end Json

end JavaRefactor
