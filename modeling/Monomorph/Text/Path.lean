/-!
# Paths

A path is a text whose segments are separated by two colons. Cutting reads from the left, so of
three colons in a row the first two are the separator and the third begins the next segment.
-/

namespace Monomorph.Text

/-- The segments of a path. -/
def segments : List Char → List (List Char)
  | [] => [[]]
  | ':' :: ':' :: rest => [] :: segments rest
  -- a single colon is an ordinary character
  | c :: rest =>
    match segments rest with
    -- this never happens, since every path has a segment
    | [] => [[c]]
    | s :: ss => (c :: s) :: ss

/-- The segments of a path with `sep` between neighbours. -/
def joinSegments (sep : List Char) : List (List Char) → List Char
  | [] => []
  | [s] => s
  | s :: rest => s ++ sep ++ joinSegments sep rest

/-- A path with `sep` in place of the colons. -/
def replaceColons (sep : List Char) (path : List Char) : List Char :=
  joinSegments sep (segments path)

/-- Every path has a segment, the empty path an empty one. -/
theorem segments_ne_nil (path : List Char) : segments path ≠ [] := by
  fun_cases segments path <;> simp_all

/-- Putting the colons back gives the path. -/
theorem joinSegments_segments (path : List Char) :
    joinSegments [':', ':'] (segments path) = path := by
  -- The cases are those of the split: a path ends, a separator opens a new segment, or a character
  -- joins the segment behind it. There is always such a segment.
  fun_induction segments path with
  | case1 => rfl
  | case2 rest ih =>
    cases h : segments rest with
    | nil => exact absurd h (segments_ne_nil rest)
    | cons s ss => rw [joinSegments, ← h, ih]; rfl; simp
  | case3 c rest _ h => exact absurd h (segments_ne_nil rest)
  | case4 c rest _ s ss h ih =>
    rw [h] at ih
    cases ss with
    | nil => simpa [joinSegments] using ih
    | cons t ts => simpa [joinSegments] using ih

example : segments ['a', ':', ':', ':', 'b'] = [['a'], [':', 'b']] := by decide

end Monomorph.Text
