import Monomorph.Text.Bytes
import Monomorph.Text.Hex

/-!
# A 64-bit text hash

Arguments of an instance and names of units that would be too long are replaced by a hash of
their text. The hash reads the bytes in words of eight, low byte first, and folds each 128-bit
product of two words into the exclusive or of its halves. Short texts read overlapping words from
both ends; long ones go through in blocks of sixteen bytes and finish with the last sixteen. All
arithmetic is modulo 2^64.
-/

namespace Monomorph.Text

namespace Hash

/-- The two words that a text is taken into. -/
abbrev State := UInt64 × UInt64

/-- The word made of the first eight bytes. -/
def word (bytes : List UInt8) : UInt64 := UInt64.ofNat (littleEndian (bytes.take 8))

/-- The word made of the first four bytes. -/
def halfWord (bytes : List UInt8) : UInt64 := UInt64.ofNat (littleEndian (bytes.take 4))

/-- The two halves of the full product, combined by exclusive or. -/
def fold (x y : UInt64) : UInt64 :=
  let p := x.toNat * y.toNat
  UInt64.ofNat p ^^^ UInt64.ofNat (p >>> 64)

/-- The state before any byte. -/
def seed : State := (0x243f6a8885a308d3, 0x13198a2e03707344)

/-- What the first word of a folded pair is paired with in a block. -/
def blockKey : UInt64 := 0xa4093822299f31d0

/-- The factor of the last step. -/
def finalFactor : UInt64 := 0xf1357aea2e62a9c5

/-- Takes in one block of sixteen bytes. -/
def block (s : State) (bytes : List UInt8) : State :=
  -- the words take turns: this block goes into one of them, the next block into the other
  (s.2, fold (s.1 ^^^ word bytes) (blockKey ^^^ word (bytes.drop 8)))

/-- Takes in a number of blocks. -/
def blocks : Nat → State → List UInt8 → State
  | 0, s, _ => s
  | n + 1, s, bytes => blocks n (block s bytes) (bytes.drop 16)

/-- Takes in a whole text. A block is read only where at least one byte follows it. -/
def absorb (bytes : List UInt8) : State :=
  let n := bytes.length
  if n > 16 then
    -- the last sixteen bytes may overlap the last block
    let s := blocks ((n - 1) / 16) seed bytes
    (s.1 ^^^ word (bytes.drop (n - 16)), s.2 ^^^ word (bytes.drop (n - 8)))
  else if n ≥ 8 then
    (seed.1 ^^^ word bytes, seed.2 ^^^ word (bytes.drop (n - 8)))
  else if n ≥ 4 then
    (seed.1 ^^^ halfWord bytes, seed.2 ^^^ halfWord (bytes.drop (n - 4)))
  else if n > 0 then
    -- one to three bytes, and of the shortest texts one is read more than once
    let first := (bytes.getD 0 0).toNat
    let middle := (bytes.getD (n / 2) 0).toNat
    let last := (bytes.getD (n - 1) 0).toNat
    (seed.1 ^^^ UInt64.ofNat first, seed.2 ^^^ UInt64.ofNat (256 * last + middle))
  else seed

/-- The bits of a word turned left by 26 places. -/
def turn (x : UInt64) : UInt64 := (x <<< 26) ||| (x >>> 38)

/-- The hash of a byte string. -/
def ofBytes (bytes : List UInt8) : UInt64 :=
  let s := absorb bytes
  -- the length tells apart texts of which the same bytes are read
  turn ((fold s.1 s.2 ^^^ UInt64.ofNat bytes.length) * finalFactor)

/-- The hash of a text, by its UTF-8 bytes, as sixteen hexadecimal digits. -/
def digits (s : String) : List Char := hexDigits 16 (ofBytes s.toUTF8.toList).toNat

end Hash

end Monomorph.Text
