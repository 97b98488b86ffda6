/-!
# The order of texts

Texts are ordered by their characters, which is the order of their UTF-8 bytes. The order decides
in a `Bool`, as sorting wants it.
-/

namespace Monomorph.Text

/-- Whether a text comes before another one or equals it. -/
def le (a b : String) : Bool := decide (a ≤ b)

/-- The order the program sorts by is the order of texts. -/
theorem le_iff {a b : String} : le a b = true ↔ a ≤ b := by simp [le]

/-- Of any two texts one comes first. -/
theorem le_total (a b : String) : (le a b || le b a) = true := by
  simp [le, String.le_total]

/-- The order of texts is transitive. -/
theorem le_trans {a b c : String} (h : le a b = true) (h' : le b c = true) : le a c = true :=
  le_iff.2 (String.le_trans (le_iff.1 h) (le_iff.1 h'))

/-- Texts at one place in the order are the same text. -/
theorem le_antisymm {a b : String} (h : le a b = true) (h' : le b a = true) : a = b :=
  String.le_antisymm (le_iff.1 h) (le_iff.1 h')

/-- The order of lists of texts: the first place where two lists differ decides, and a list comes
    before its continuations. -/
def leList : List String → List String → Bool
  | [], _ => true
  | _ :: _, [] => false
  | a :: as, b :: bs => if a = b then leList as bs else le a b

/-- Of any two lists of texts one comes first. -/
theorem leList_total (as bs : List String) : (leList as bs || leList bs as) = true := by
  -- Both lists are read in step: the first texts that differ decide, and equal ones are passed.
  induction as generalizing bs with
  | nil => simp [leList]
  | cons a as ih =>
    cases bs with
    | nil => simp [leList]
    | cons b bs =>
      by_cases h : a = b
      · subst h
        simpa [leList] using ih bs
      · have h' : b ≠ a := Ne.symm h
        simpa [leList, h, h'] using le_total a b

/-- Two different texts of which the first is not after the second are in strict order. -/
theorem lt_of_le_of_ne {a b : String} (h : le a b = true) (hne : a ≠ b) : a < b := by
  rcases Decidable.em (a < b) with hlt | hlt
  · exact hlt
  · exact absurd (String.le_antisymm (le_iff.1 h) (String.not_lt.1 hlt)) hne

end Monomorph.Text
