/-! # SHA-256

The digest of a list of bytes and its hexadecimal form. Plans carry the digest
of the text they were made for, so that they are never applied to another one.
-/

namespace JavaRefactor.Sha256

/-- The eight words that one block is mixed into. -/
structure Chain where
  a : UInt32
  b : UInt32
  c : UInt32
  d : UInt32
  e : UInt32
  f : UInt32
  g : UInt32
  h : UInt32

def initial : Chain :=
  ⟨0x6a09e667, 0xbb67ae85, 0x3c6ef372, 0xa54ff53a, 0x510e527f, 0x9b05688c, 0x1f83d9ab, 0x5be0cd19⟩

/-- One constant for each of the sixty-four rounds. -/
def constants : List UInt32 :=
  [0x428a2f98, 0x71374491, 0xb5c0fbcf, 0xe9b5dba5, 0x3956c25b, 0x59f111f1, 0x923f82a4, 0xab1c5ed5,
   0xd807aa98, 0x12835b01, 0x243185be, 0x550c7dc3, 0x72be5d74, 0x80deb1fe, 0x9bdc06a7, 0xc19bf174,
   0xe49b69c1, 0xefbe4786, 0x0fc19dc6, 0x240ca1cc, 0x2de92c6f, 0x4a7484aa, 0x5cb0a9dc, 0x76f988da,
   0x983e5152, 0xa831c66d, 0xb00327c8, 0xbf597fc7, 0xc6e00bf3, 0xd5a79147, 0x06ca6351, 0x14292967,
   0x27b70a85, 0x2e1b2138, 0x4d2c6dfc, 0x53380d13, 0x650a7354, 0x766a0abb, 0x81c2c92e, 0x92722c85,
   0xa2bfe8a1, 0xa81a664b, 0xc24b8b70, 0xc76c51a3, 0xd192e819, 0xd6990624, 0xf40e3585, 0x106aa070,
   0x19a4c116, 0x1e376c08, 0x2748774c, 0x34b0bcb5, 0x391c0cb3, 0x4ed8aa4a, 0x5b9cca4f, 0x682e6ff3,
   0x748f82ee, 0x78a5636f, 0x84c87814, 0x8cc70208, 0x90befffa, 0xa4506ceb, 0xbef9a3f7, 0xc67178f2]

def rotate (x n : UInt32) : UInt32 := (x >>> n) ||| (x <<< (32 - n))

/-- Extends the sixteen words of a block, kept in reading order, by `n` more. -/
def schedule (words : Array UInt32) : Nat → Array UInt32
  | 0 => words
  | n + 1 =>
    let next (w : Array UInt32) : UInt32 :=
      let word (back : Nat) : UInt32 := w.getD (w.size - back) 0
      let x := word 15
      let y := word 2
      word 16 + (rotate x 7 ^^^ rotate x 18 ^^^ (x >>> 3)) + word 7 +
        (rotate y 17 ^^^ rotate y 19 ^^^ (y >>> 10))
    let w := schedule words n
    w.push (next w)

def round (s : Chain) (constant word : UInt32) : Chain :=
  let mix := rotate s.e 6 ^^^ rotate s.e 11 ^^^ rotate s.e 25
  let choice := (s.e &&& s.f) ^^^ (~~~s.e &&& s.g)
  let t := s.h + mix + choice + constant + word
  let fold := rotate s.a 2 ^^^ rotate s.a 13 ^^^ rotate s.a 22
  let majority := (s.a &&& s.b) ^^^ (s.a &&& s.c) ^^^ (s.b &&& s.c)
  ⟨t + (fold + majority), s.a, s.b, s.c, s.d + t, s.e, s.f, s.g⟩

/-- Mixes a block of sixteen words into the chain. -/
def compress (s : Chain) (block : Array UInt32) : Chain :=
  let words := (schedule block 48).toList
  let r := (constants.zip words).foldl (fun r kw => round r kw.1 kw.2) s
  ⟨s.a + r.a, s.b + r.b, s.c + r.c, s.d + r.d, s.e + r.e, s.f + r.f, s.g + r.g, s.h + r.h⟩

/-- Groups bytes into words, the first byte highest. -/
def words : List UInt8 → List UInt32
  | a :: b :: c :: d :: rest =>
    ((a.toUInt32 <<< 24) ||| (b.toUInt32 <<< 16) ||| (c.toUInt32 <<< 8) ||| d.toUInt32) ::
      words rest
  | _ => []

/-- The byte of a number that stands `shift` bits above its lowest one. -/
def byteAt (n shift : Nat) : UInt8 := UInt8.ofNat ((n >>> shift) % 256)

/-- Closes a message with a one bit, zeros up to a whole block and its length in bits. -/
def pad (message : List UInt8) : List UInt8 :=
  let size := message.length
  message ++ 0x80 :: List.replicate ((119 - size % 64) % 64) 0 ++
    [56, 48, 40, 32, 24, 16, 8, 0].map (byteAt (8 * size))

/-- The chain after all blocks, with the words of an unfinished block. -/
def absorb (s : Chain × Array UInt32) (word : UInt32) : Chain × Array UInt32 :=
  let block := s.2.push word
  if block.size = 16 then (compress s.1 block, #[]) else (s.1, block)

def digest (message : List UInt8) : List UInt32 :=
  let s := ((words (pad message)).foldl absorb (initial, #[])).1
  [s.a, s.b, s.c, s.d, s.e, s.f, s.g, s.h]

/-- The eight hexadecimal digits of a word. -/
def hexWord (w : UInt32) : List Char :=
  [28, 24, 20, 16, 12, 8, 4, 0].map fun shift => Nat.digitChar ((w.toNat >>> shift) % 16)

/-- The digest of a list of bytes in hexadecimal digits. -/
def hex (message : List UInt8) : String := String.ofList ((digest message).flatMap hexWord)

end JavaRefactor.Sha256
