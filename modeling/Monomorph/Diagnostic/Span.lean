/-!
# Source spans

A span names a stretch of source text by the file it lies in and the two offsets that bound it.
The all-zero span is reserved for code that no source text stands behind; diagnostics never point
at it.
-/

namespace Monomorph

/-- A stretch of source text: a file number, the offset of the first character and the offset
    after the last one. -/
structure Span where
  file : Nat := 0
  start : Nat := 0
  stop : Nat := 0
  deriving DecidableEq, Repr, Inhabited

namespace Span

/-- The span of code that has no source text. -/
def dummy : Span := ⟨0, 0, 0⟩

/-- Whether the span stands for code without source text. -/
def isDummy (s : Span) : Bool := s == dummy

/-- The written form, `#file:start..stop`. -/
def text (s : Span) : String :=
  "#" ++ toString s.file ++ ":" ++ toString s.start ++ ".." ++ toString s.stop

/-- Spans are ordered by file, then by start, then by stop. -/
def le (a b : Span) : Bool :=
  if a.file = b.file then
    if a.start = b.start then decide (a.stop ≤ b.stop) else decide (a.start < b.start)
  else decide (a.file < b.file)

/-- The span without a place is told by its position. -/
@[simp] theorem isDummy_dummy : dummy.isDummy = true := rfl

/-- Spans are ordered by file, then by start, then by end. -/
theorem le_iff {a b : Span} : a.le b = true ↔ a.file < b.file ∨
    (a.file = b.file ∧ (a.start < b.start ∨ (a.start = b.start ∧ a.stop ≤ b.stop))) := by
  unfold le
  split
  · split <;> simp <;> omega
  · simp
    omega

/-- Of any two spans one comes first. -/
theorem le_total (a b : Span) : (a.le b || b.le a) = true := by
  rw [Bool.or_eq_true, le_iff, le_iff]
  omega

/-- The order of spans is transitive. -/
theorem le_trans {a b c : Span} (h : a.le b = true) (h' : b.le c = true) : a.le c = true := by
  rw [le_iff] at *
  omega

/-- Spans at one place in the order are the same span. -/
theorem le_antisymm {a b : Span} (h : a.le b = true) (h' : b.le a = true) : a = b := by
  rw [le_iff] at *
  cases a
  cases b
  simp only [mk.injEq]
  dsimp only at h h'
  omega

/-- Only one span has no place in the source. -/
theorem isDummy_iff {s : Span} : s.isDummy = true ↔ s = dummy := by
  simp [isDummy]

end Span

end Monomorph
