import Mathlib.Tactic.SplitIfs
import Monomorph.Text.Order

/-!
# The order of bytes

Texts are ordered by their characters. That is the order of their UTF-8 bytes
(`Text.lt_iff_bytes_lt`): of two characters the one with the larger number has the larger first
byte, or the first bytes and all lengths agree and the digits to base 64 that follow decide.
-/

namespace Monomorph.Text

/-- The bytes of a text. -/
def bytes (s : String) : List UInt8 := s.toUTF8.data.toList

/-- The bytes of a string are those of its characters, one after another. -/
theorem bytes_eq_flatMap (s : String) : bytes s = s.toList.flatMap String.utf8EncodeChar := by
  rw [bytes, String.toUTF8, ← String.utf8Encode_toList, List.utf8Encode,
    List.toList_data_toByteArray]

/-! ## The bytes of a character -/

/-- How many bytes follow the first one. -/
def width (v : Nat) : Nat :=
  if v ≤ 127 then 0 else if v ≤ 2047 then 1 else if v ≤ 65535 then 2 else 3

/-- The first byte. -/
def lead (v : Nat) : Nat :=
  if v ≤ 127 then v else if v ≤ 2047 then v / 64 + 192
  else if v ≤ 65535 then v / 4096 + 224 else v / 262144 + 240

/-- A number without its lowest `k` digits to base 64. -/
def high : (k : Nat) → Nat → Nat
  | 0, v => v
  | k + 1, v => high k (v / 64)

/-- The lowest `k` digits to base 64, as bytes that follow another one. -/
def tails : (k : Nat) → Nat → List UInt8
  | 0, _ => []
  | k + 1, v => tails k (v / 64) ++ [UInt8.ofNat (v % 64 + 128)]

/-- Every scalar value lies below the end of the Unicode range. -/
theorem toNat_lt (c : Char) : c.toNat < 1114112 := by
  have h : c.toNat < 55296 ∨ 57343 < c.toNat ∧ c.toNat < 1114112 := c.valid
  omega

/-- A character is encoded as its first byte and the continuation bytes that the first byte
    announces. -/
theorem utf8EncodeChar_eq_cons (c : Char) : String.utf8EncodeChar c =
    UInt8.ofNat (lead c.toNat) :: tails (width c.toNat) c.toNat := by
  have h := toNat_lt c
  simp only [String.utf8EncodeChar, lead, width, Char.toNat_val]
  split_ifs <;> simp [tails, Nat.div_div_eq_div_mul] <;> congr <;> omega

/-- The first bytes decide, or the lengths agree and so do the digits in the first bytes. -/
theorem lead_lt_or_eq {m n : Nat} (h : m < n) : lead m < lead n ∨
    width m = width n ∧ lead m = lead n ∧ high (width m) m = high (width m) n := by
  simp only [lead, width]
  split_ifs <;> simp [high] <;> omega

/-- A smaller first byte decides the order, whatever follows. -/
theorem ofNat_cons_lt {m n : Nat} (h : m < n) (hn : n < 256) (r s : List UInt8) :
    UInt8.ofNat m :: r < UInt8.ofNat n :: s := by
  refine List.cons_lt_cons_iff.2 (.inl ?_)
  rw [UInt8.lt_iff_toNat_lt, UInt8.toNat_ofNat', UInt8.toNat_ofNat']
  omega

/-- Of numbers that agree above their lowest digits, the smaller one has the smaller digits. -/
theorem tails_append_lt {k m n : Nat} (h : m < n) (hhigh : high k m = high k n)
    (r s : List UInt8) : tails k m ++ r < tails k n ++ s := by
  induction k generalizing m n r s with
  | zero => exact absurd hhigh (Nat.ne_of_lt h)
  | succ k ih =>
    rw [tails, tails, List.append_assoc, List.append_assoc]
    -- the lowest digit decides, or one of those in front of it
    by_cases he : m / 64 = n / 64
    · rw [he]
      exact List.append_left_lt (ofNat_cons_lt (by omega) (by omega) r s)
    · exact ih (by omega) hhigh _ _

/-- The bytes of a smaller character come first, whatever follows them. -/
theorem utf8EncodeChar_append_lt {c d : Char} (h : c < d) (r s : List UInt8) :
    String.utf8EncodeChar c ++ r < String.utf8EncodeChar d ++ s := by
  have hd := toNat_lt d
  rw [utf8EncodeChar_eq_cons, utf8EncodeChar_eq_cons]
  obtain hlt | ⟨hwidth, hlead, hq⟩ := lead_lt_or_eq (show c.toNat < d.toNat from h)
  · -- no first byte is cut off
    refine ofNat_cons_lt hlt ?_ _ _
    unfold lead
    split_ifs <;> omega
  · rw [hlead, ← hwidth]
    exact List.cons_lt_cons_iff.2 (.inr ⟨rfl, tails_append_lt h hq r s⟩)

/-! ## The bytes of a text -/

/-- Encoding keeps the lexicographic order of the characters. -/
theorem flatMap_utf8EncodeChar_lt {cs ds : List Char} (h : List.Lex (· < ·) cs ds) :
    cs.flatMap String.utf8EncodeChar < ds.flatMap String.utf8EncodeChar := by
  -- one list ends, the first characters agree, or the first character is smaller
  induction h with
  | nil =>
    rw [List.flatMap_cons, utf8EncodeChar_eq_cons]
    exact List.nil_lt_cons _ _
  | cons _ ih =>
    rw [List.flatMap_cons, List.flatMap_cons]
    exact List.append_left_lt ih
  | rel h =>
    rw [List.flatMap_cons, List.flatMap_cons]
    exact utf8EncodeChar_append_lt h _ _

/-- The order of texts is the order of their bytes. -/
theorem lt_iff_bytes_lt {a b : String} : a < b ↔ bytes a < bytes b := by
  have hbytes : ∀ {a b : String}, a < b → bytes a < bytes b := by
    intro a b h
    rw [bytes_eq_flatMap, bytes_eq_flatMap]
    exact flatMap_utf8EncodeChar_lt h
  -- the order of texts is total, so it cannot be the other way round
  refine ⟨hbytes, fun h => Classical.byContradiction fun hlt => ?_⟩
  have hle : le b a = true := le_iff.2 (String.not_lt.1 hlt)
  by_cases he : b = a
  · subst he
    exact List.lt_irrefl _ h
  · exact List.lt_asymm h (hbytes (lt_of_le_of_ne hle he))

end Monomorph.Text
