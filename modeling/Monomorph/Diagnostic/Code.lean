/-!
# Diagnostic codes

Every diagnostic carries a code that users can search for. Codes `E7…` are faults of the program
being compiled, codes `E91…` are faults of the compiler itself, codes `W7…` are warnings.
-/

namespace Monomorph

/-- What a diagnostic is about. -/
inductive Code where
  /-- The arguments of an instance are nested too deeply. -/
  | overflow
  /-- A use cannot be resolved to an instance. -/
  | unresolved
  /-- The arguments of an instance are too long. -/
  | typeLength
  /-- Two analyses of one item gave different sets. -/
  | analysisConflict
  /-- A rule about codegen units was broken. -/
  | placement
  /-- Two instances have one symbol. -/
  | symbolClash
  /-- A generic item was offered as a root. -/
  | genericRoot
  deriving DecidableEq, Repr, Inhabited

namespace Code

/-- All codes, in their order. -/
def all : List Code :=
  [overflow, unresolved, typeLength, analysisConflict, placement, symbolClash, genericRoot]

/-- The written form. -/
def text : Code → String
  | overflow => "E7001"
  | unresolved => "E7002"
  | typeLength => "E7003"
  | analysisConflict => "E9101"
  | placement => "E9102"
  | symbolClash => "E9103"
  | genericRoot => "W7001"

/-- The code with a given written form. -/
def ofText? (s : String) : Option Code := all.find? fun c => c.text == s

/-- Whether the fault lies in the compiler and never in the program it compiles. -/
def isInternal : Code → Bool
  | analysisConflict | placement | symbolClash => true
  | overflow | unresolved | typeLength | genericRoot => false

/-- The position of a code in the order of codes. -/
def rank : Code → Nat
  | overflow => 0
  | unresolved => 1
  | typeLength => 2
  | analysisConflict => 3
  | placement => 4
  | symbolClash => 5
  | genericRoot => 6

/-- The order of codes. -/
def le (a b : Code) : Bool := decide (a.rank ≤ b.rank)

/-- Codes are ordered as they are declared. -/
theorem le_iff {a b : Code} : a.le b = true ↔ a.rank ≤ b.rank := by simp [le]

/-- Of any two codes one comes first. -/
theorem le_total (a b : Code) : (a.le b || b.le a) = true := by
  simp [le, Nat.le_total]

/-- The order of codes is transitive. -/
theorem le_trans {a b c : Code} (h : a.le b = true) (h' : b.le c = true) : a.le c = true :=
  le_iff.2 (Nat.le_trans (le_iff.1 h) (le_iff.1 h'))

/-- Codes at one place in the order are the same code. -/
theorem le_antisymm {a b : Code} (h : a.le b = true) (h' : b.le a = true) : a = b := by
  have e := Nat.le_antisymm (le_iff.1 h) (le_iff.1 h')
  cases a <;> cases b <;> simp_all [rank]

/-- No code is missing from the list of all codes. -/
theorem mem_all (c : Code) : c ∈ all := by cases c <;> decide

/-- A code is found again by its text. -/
theorem ofText?_text (c : Code) : ofText? c.text = some c := by
  cases c <;> decide

end Code

end Monomorph
