/-!
# Numbers as bytes

Numbers are stored with the lowest byte first. `littleEndian` reads a number off any run of bytes
and `toLittleEndian` writes one into a run of fixed length; writing keeps a number that fits.
-/

namespace Monomorph.Text

/-- The number whose digits to base 256 are `bytes`, lowest first. -/
def littleEndian : List UInt8 → Nat
  | [] => 0
  | b :: bs => b.toNat + 256 * littleEndian bs

/-- The lowest `width` digits of a number to base 256, lowest first. -/
def toLittleEndian : (width : Nat) → Nat → List UInt8
  | 0, _ => []
  | width + 1, n => UInt8.ofNat n :: toLittleEndian width (n / 256)

/-- A number is written in the width asked for. -/
@[simp] theorem length_toLittleEndian (width n : Nat) :
    (toLittleEndian width n).length = width := by
  induction width generalizing n with
  | zero => rfl
  | succ width ih => simp [toLittleEndian, ih]

/-- A number is read back up to what the width can hold. -/
theorem littleEndian_toLittleEndian (width n : Nat) :
    littleEndian (toLittleEndian width n) = n % Nat.pow 256 width := by
  show littleEndian (toLittleEndian width n) = n % 256 ^ width
  induction width generalizing n with
  | zero => simp [littleEndian, toLittleEndian, Nat.mod_one]
  | succ width ih =>
    rw [toLittleEndian, littleEndian, ih, Nat.pow_succ, Nat.mul_comm (256 ^ width), Nat.mod_mul,
      UInt8.toNat_ofNat']

end Monomorph.Text
