import Monomorph.Text.Lines

/-!
# Sets of unused parameters

`ParamSet` holds the positions of the generic parameters that an item never depends on. A set is
a mask of 64 bits: positions from 64 on are never members, so a parameter that far out always
counts as used. The view is `members`, the positions in increasing order.
-/

namespace Monomorph

/-- A set of parameter positions below 64. -/
structure ParamSet where
  mask : BitVec 64
  deriving DecidableEq, Repr

namespace ParamSet

/-- How many positions a set can tell apart. -/
def width : Nat := 64

/-- The set without members: every parameter is used. -/
def empty : ParamSet := ⟨0⟩

instance : Inhabited ParamSet := ⟨empty⟩

/-- The set of the first `n` positions, as far as the mask goes. -/
def firstN (n : Nat) : ParamSet :=
  -- a shift by the whole width would leave nothing to take one from
  if width ≤ n then ⟨BitVec.allOnes 64⟩ else ⟨1#64 <<< n - 1#64⟩

/-- Whether position `i` is a member. -/
def contains (s : ParamSet) (i : Nat) : Bool := decide (i < width) && s.mask.getLsbD i

/-- The set without position `i`. -/
def erase (s : ParamSet) (i : Nat) : ParamSet :=
  if i < width then ⟨s.mask &&& ~~~(BitVec.twoPow 64 i)⟩ else s

/-- The set without the positions of a list. -/
def eraseAll (s : ParamSet) (is : List Nat) : ParamSet := is.foldl erase s

/-- Whether there is no member. -/
def isEmpty (s : ParamSet) : Bool := s.mask == 0

/-- The members in increasing order. -/
def members (s : ParamSet) : List Nat := (List.range width).filter s.contains

/-- The number of members: the bits that are set. -/
def size (s : ParamSet) : Nat := s.mask.cpop.toNat

/-- The written form, the members in braces. -/
def text (s : ParamSet) : String :=
  "\x7b" ++ Text.commas (s.members.map toString) ++ "\x7d"

/-- No position beyond the width of the mask is in a set. -/
theorem contains_eq_false_of_le (s : ParamSet) {i : Nat} (h : width ≤ i) :
    s.contains i = false := by
  simp [contains, Nat.not_lt.2 h]

/-- A position is in a set where its bit is. -/
theorem contains_eq_getLsbD (s : ParamSet) (i : Nat) : s.contains i = s.mask.getLsbD i := by
  by_cases h : i < width
  · simp [contains, h]
  · rw [contains_eq_false_of_le s (Nat.le_of_not_lt h)]
    exact (BitVec.getLsbD_of_ge _ _ (Nat.le_of_not_lt h)).symm

/-- Nothing is in the empty set. -/
@[simp] theorem contains_empty (i : Nat) : empty.contains i = false := by
  simp [contains, empty]

/-- Erasing one position leaves the others. -/
theorem contains_erase (s : ParamSet) (i j : Nat) :
    (s.erase i).contains j = (s.contains j && decide (j ≠ i)) := by
  -- Beyond the width there is nothing to erase; within it the mask loses one bit.
  -- each hypothesis is restated with the number, since `width` hides it
  by_cases hj : j < width
  · have hj' : j < 64 := hj
    by_cases hi : i < width
    · have hi' : i < 64 := hi
      have he : (s.erase i).mask = s.mask &&& ~~~(BitVec.twoPow 64 i) := by
        simp only [erase, hi, if_true]
      rw [contains_eq_getLsbD, contains_eq_getLsbD, he]
      by_cases hij : j = i
      · simp [hij, hi']
      · simp [hij, hj']
    · have hij : j ≠ i := fun e => hi (e ▸ hj)
      simp [erase, hi, hij]
  · simp [contains_eq_false_of_le, Nat.le_of_not_lt hj]

/-- One less than a power of two has just the bits below it. -/
theorem getLsbD_shiftLeft_sub_one {n : Nat} (h : n < width) (i : Nat) :
    (1#64 <<< n - 1#64).getLsbD i = decide (i < n) := by
  -- Below the width a shifted one does not overflow, so taking one off leaves the bits below it.
  have hlt : 2 ^ n < 2 ^ 64 := Nat.pow_lt_pow_right (by decide) h
  have hshift : (1#64 <<< n).toNat = 2 ^ n := by
    rw [BitVec.toNat_shiftLeft, BitVec.toNat_ofNat, Nat.shiftLeft_eq, Nat.one_mod_two_pow (by decide),
      Nat.one_mul, Nat.mod_eq_of_lt hlt]
  have hle : 1#64 ≤ 1#64 <<< n := by
    rw [BitVec.le_def, hshift]
    exact Nat.two_pow_pos n
  rw [BitVec.getLsbD, BitVec.toNat_sub_of_le hle, hshift]
  exact Nat.testBit_two_pow_sub_one n i

/-- The first positions are in their set as far as the mask is wide. -/
theorem contains_firstN (n i : Nat) :
    (firstN n).contains i = (decide (i < n) && decide (i < width)) := by
  rw [contains_eq_getLsbD, firstN]
  split
  case isTrue h =>
    rw [BitVec.getLsbD_allOnes, Bool.eq_iff_iff]
    unfold width at *
    simp only [Bool.and_eq_true, decide_eq_true_eq]
    omega
  case isFalse h =>
    rw [getLsbD_shiftLeft_sub_one (Nat.lt_of_not_le h), Bool.eq_iff_iff]
    simp only [Bool.and_eq_true, decide_eq_true_eq]
    omega

/-- The members of a set are the positions in it. -/
theorem mem_members {s : ParamSet} {i : Nat} : i ∈ s.members ↔ s.contains i = true := by
  simp only [members, List.mem_filter, List.mem_range, and_iff_right_iff_imp]
  intro h
  apply Nat.lt_of_not_le
  intro hle
  simp [contains_eq_false_of_le s hle] at h

/-- Two sets with the same members are equal. -/
theorem ext_contains {s t : ParamSet} (h : ∀ i, s.contains i = t.contains i) : s = t := by
  simp only [contains_eq_getLsbD] at h
  cases s; cases t
  congr 1
  exact BitVec.eq_of_getLsbD_eq fun i _ => h i

end ParamSet

end Monomorph
