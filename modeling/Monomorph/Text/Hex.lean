/-!
# Hexadecimal text

Numbers and bytes in lower-case hexadecimal. A number is padded with zeros on the left up to a
given width; a byte always takes two digits, so reading the digits of bytes gives the bytes back.
-/

namespace Monomorph.Text

/-- The digits of `n`, at least `width` of them. -/
def hexDigits (width n : Nat) : List Char :=
  let digits := Nat.toDigits 16 n
  -- numbers that need more digits are not cut
  List.replicate (width - digits.length) '0' ++ digits

/-- The digits of `n` as a text, at least `width` of them. -/
def hex (width n : Nat) : String := String.ofList (hexDigits width n)

/-- The bytes in order, two digits each. -/
def hexBytes (bytes : List UInt8) : String :=
  String.ofList (bytes.flatMap fun b => hexDigits 2 b.toNat)

/-- The value of a hexadecimal digit. -/
def hexDigit? (c : Char) : Option Nat :=
  if '0' ≤ c ∧ c ≤ '9' then some (c.toNat - 48)
  else if 'a' ≤ c ∧ c ≤ 'f' then some (c.toNat - 87)
  else if 'A' ≤ c ∧ c ≤ 'F' then some (c.toNat - 55)
  else none

/-- Reads bytes of two digits each. -/
def ofHex? : List Char → Option (List UInt8)
  | [] => some []
  | [_] => none
  | high :: low :: rest => do
    let h ← hexDigit? high
    let l ← hexDigit? low
    let bytes ← ofHex? rest
    return UInt8.ofNat (16 * h + l) :: bytes

/-- The number that hexadecimal digits stand for. -/
def hexValue (digits : List Char) : Nat :=
  digits.foldl (fun n c => 16 * n + (hexDigit? c).getD 0) 0

/-- A byte is written as two digits, the high one first. -/
theorem hexDigits_two {n : Nat} (h : n < 256) :
    hexDigits 2 n = [Nat.digitChar (n / 16), Nat.digitChar (n % 16)] := by
  revert n
  decide +kernel

/-- A digit is read back from its character. -/
theorem hexDigit?_digitChar {n : Nat} (h : n < 16) : hexDigit? (Nat.digitChar n) = some n := by
  revert n
  decide

/-- The digits of a number stand for digits. -/
theorem exists_of_mem_toDigits {n : Nat} {c : Char} (h : c ∈ Nat.toDigits 16 n) :
    ∃ d < 16, c = Nat.digitChar d := by
  induction n using Nat.strongRecOn with
  | _ n ih =>
    rw [Nat.toDigits_eq_if (by decide)] at h
    split at h
    · next hlt => exact ⟨n, hlt, List.mem_singleton.1 h⟩
    · rcases List.mem_append.1 h with h | h
      · exact ih (n / 16) (by omega) h
      · exact ⟨n % 16, by omega, List.mem_singleton.1 h⟩

/-- A number is written with digits and nothing else. -/
theorem isSome_hexDigit?_of_mem {width n : Nat} {c : Char} (h : c ∈ hexDigits width n) :
    (hexDigit? c).isSome = true := by
  rcases List.mem_append.1 h with h | h
  · rw [(List.mem_replicate.1 h).2]
    decide
  · obtain ⟨d, hd, rfl⟩ := exists_of_mem_toDigits h
    rw [hexDigit?_digitChar hd]
    rfl

/-- The number can be read off its digits. -/
theorem hexValue_hexDigits (width n : Nat) : hexValue (hexDigits width n) = n := by
  -- The padding counts nothing, and the digits behind it are read back by induction on the number,
  -- which loses its last digit at each step.
  have hpadding : ∀ k, hexValue (List.replicate k '0') = 0 := by
    intro k
    induction k with
    | zero => rfl
    | succ k ih =>
      rw [List.replicate_succ', hexValue, List.foldl_append, ← hexValue, ih]
      decide
  have hdigits : hexValue (Nat.toDigits 16 n) = n := by
    induction n using Nat.strongRecOn with
    | _ n ih =>
      rw [Nat.toDigits_eq_if (by decide)]
      split
      · next hlt => simp [hexValue, hexDigit?_digitChar hlt]
      · rw [hexValue, List.foldl_append, ← hexValue, ih (n / 16) (by omega), List.foldl_cons,
          List.foldl_nil, hexDigit?_digitChar (Nat.mod_lt n (by decide)), Option.getD_some,
          Nat.div_add_mod]
  rw [hexDigits, hexValue, List.foldl_append, ← hexValue, hpadding, ← hexValue, hdigits]

/-- Bytes can be read off their digits. -/
theorem ofHex?_hexBytes (bytes : List UInt8) : ofHex? (hexBytes bytes).toList = some bytes := by
  simp only [hexBytes, String.toList_ofList]
  -- Each byte stands for two digits of its own, so the induction takes them off together.
  induction bytes with
  | nil => rfl
  | cons b bytes ih =>
    have hb : b.toNat < 256 := b.toNat_lt
    have high : b.toNat / 16 < 16 := by omega
    have low : b.toNat % 16 < 16 := by omega
    rw [List.flatMap_cons, hexDigits_two hb, List.cons_append, List.cons_append, List.nil_append,
      ofHex?, hexDigit?_digitChar high, hexDigit?_digitChar low, ih]
    simp only [Option.bind_eq_bind, Option.bind_some, Nat.div_add_mod, UInt8.ofNat_toNat]
    rfl

example : hexDigits 2 10 = ['0', 'a'] ∧ hexDigits 2 8364 = ['2', '0', 'a', 'c'] := by decide

example : ofHex? ['0', 'a', 'F', 'f'] = some [10, 255] := by decide

end Monomorph.Text
