/-! # Whole numbers in text -/

namespace JavaRefactor.Decimal

/-- The value of a decimal digit. -/
def digit? (c : Char) : Option Nat := if c.isDigit then some (c.toNat - '0'.toNat) else none

/-- Reads digits behind the value of those already read. -/
def digits? (value : Nat) : List Char → Option Nat
  | [] => some value
  | c :: cs => (digit? c).bind fun d => digits? (10 * value + d) cs

/-- Reads one digit or more. -/
def natural? : List Char → Option Nat
  | [] => none
  | cs => digits? 0 cs

/-- Reads a whole number below `bound`, with an optional plus sign. -/
def below? (bound : Nat) (cs : List Char) : Option Nat :=
  let number := match cs with
    | '+' :: rest => natural? rest
    | rest => natural? rest
  number.filter (· < bound)

/-- Line and column numbers are kept in 32 bits. -/
def word32 : Nat := 0x1_0000_0000

/-- Lengths and offsets are kept in 64 bits. -/
def word64 : Nat := 0x1_0000_0000_0000_0000

/-- Signed numbers of 64 bits lie between this and its negative. -/
def halfWord64 : Int := 0x8000_0000_0000_0000

/-- The signed number of 64 bits that differs from a number by a multiple of the word. -/
def signed64 (n : Nat) : Int := Int.bmod n word64

/-- The digits of a number, without sign or leading zeros. -/
def ofNat (n : Nat) : List Char := Nat.toDigits 10 n

/-- The digits of a number, behind a minus sign if it is negative. -/
def ofInt : Int → List Char
  | .ofNat n => ofNat n
  | .negSucc n => '-' :: ofNat (n + 1)

end JavaRefactor.Decimal
