import Monomorph.Partition.Placement

/-!
# Joining units

If there are more units than wanted, the smallest is joined to the second smallest until there are
as many as wanted; units are never cut. Units of one size are told apart by name, so the outcome
does not depend on the order in which they are given.
-/

namespace Monomorph

/-- The order of units by their costs and names: larger ones come first, those of one size in the
    order of their names. -/
def largerFirst (u v : Nat × String) : Bool :=
  decide (v.1 < u.1) || (u.1 == v.1 && Text.le u.2 v.2)

/-- A larger unit comes first, and of two of one size the one whose name does. -/
theorem largerFirst_iff {u v : Nat × String} :
    largerFirst u v = true ↔ v.1 < u.1 ∨ (u.1 = v.1 ∧ Text.le u.2 v.2 = true) := by
  simp [largerFirst]

/-- Of any two units one comes first. -/
theorem largerFirst_total (u v : Nat × String) : (largerFirst u v || largerFirst v u) = true := by
  have hn := Text.le_total u.2 v.2
  rw [Bool.or_eq_true] at hn ⊢
  rw [largerFirst_iff, largerFirst_iff]
  -- the costs decide, and where they are equal the names do
  rcases Nat.lt_trichotomy u.1 v.1 with h | h | h
  · exact .inr (.inl h)
  · exact hn.imp (fun hn => .inr ⟨h, hn⟩) fun hn => .inr ⟨h.symm, hn⟩
  · exact .inl (.inl h)

/-- The order of units by size is transitive. -/
theorem largerFirst_trans {u v w : Nat × String} (h : largerFirst u v = true)
    (h' : largerFirst v w = true) : largerFirst u w = true := by
  rw [largerFirst_iff] at h h' ⊢
  -- each comparison is decided by the costs or by the names
  rcases h with h | ⟨h, hn⟩ <;> rcases h' with h' | ⟨h', hn'⟩
  · exact .inl (Nat.lt_trans h' h)
  · exact .inl (h' ▸ h)
  · exact .inl (h ▸ h')
  · exact .inr ⟨h.trans h', Text.le_trans hn hn'⟩

namespace Plan

/-- The order of units while they are put together. -/
def le (u v : Plan) : Bool := largerFirst (u.cost, u.name) (v.cost, v.name)

/-- A unit with all that another one holds. -/
def absorb (u v : Plan) : Plan where
  name := u.name ++ "--" ++ v.name
  buckets := u.buckets ++ v.buckets
  nodes := u.nodes ++ v.nodes
  cost := satAdd u.cost v.cost

/-- Joins the last unit to the one in front of it. -/
def joinLast : List Plan → List Plan
  | [] => []
  | [u] => [u]
  | [u, v] => [u.absorb v]
  | u :: v :: w :: rest => u :: joinLast (v :: w :: rest)

/-- Joins the smallest unit to the second smallest. -/
def joinSmallest (us : List Plan) : List Plan := joinLast (us.mergeSort le)

/-- Joins units a number of times. -/
def joinTimes : Nat → List Plan → List Plan
  | 0, us => us
  | n + 1, us => joinTimes n (joinSmallest us)

/-- Joins units until there are at most as many as wanted; none wanted counts as one. -/
def mergeTo (wanted : Nat) (us : List Plan) : List Plan :=
  joinTimes (us.length - max wanted 1) us

/-- Joining the last two leaves one unit less. -/
theorem length_joinLast (us : List Plan) (h : 2 ≤ us.length) :
    (joinLast us).length = us.length - 1 := by
  fun_induction joinLast us with
  | case1 => simp at h
  | case2 => simp at h
  | case3 => rfl
  | case4 u v w rest ih => simp [ih (by simp)]

/-- Each join leaves one unit less. -/
theorem length_joinTimes (n : Nat) (us : List Plan) (h : n < us.length) :
    (joinTimes n us).length = us.length - n := by
  induction n generalizing us with
  | zero => rfl
  | succ n ih =>
    have hs : (joinSmallest us).length = us.length - 1 := by
      rw [joinSmallest, length_joinLast _ (by simp; omega), List.length_mergeSort]
    rw [joinTimes, ih _ (by omega), hs]
    omega

end Plan

end Monomorph
