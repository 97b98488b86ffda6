import Mathlib.Order.Bounds.Basic
import Mathlib.Order.Iterate
import Monomorph.Proofs.Unused

/-!
# Ties between parameters

Requirements tie positions together: once one position of a group is used, all are. The rounds of
`ParamSet.settle` come to rest, since each round that changes anything leaves one group more without
unused positions (`ParamSet.tieAll_settle`), and what is used then is the least set that has what
was used before and respects the ties (`ParamSet.isLeast_used_settle`).
-/

namespace Monomorph

namespace ParamSet

variable {s : ParamSet} {group : List Nat} {groups : List (List Nat)} {i : Nat}

/-- The positions that are not in a set of unused ones. -/
def used (s : ParamSet) : Set Nat := {i | s.contains i = false}

/-- Whether a set of positions has all positions of a group as soon as it has one. -/
def RespectsTies (groups : List (List Nat)) (S : Set Nat) : Prop :=
  ∀ group ∈ groups, (∃ i ∈ group, i ∈ S) → ∀ i ∈ group, i ∈ S

/-! ## One round -/

/-- A position is in use where it is not in the set. -/
theorem mem_used : i ∈ s.used ↔ s.contains i = false := Iff.rfl

/-- The positions that are used tell the unused ones. -/
theorem used_inj {t : ParamSet} (h : s.used = t.used) : s = t := by
  refine ext_contains fun i => ?_
  have hi : i ∈ s.used ↔ i ∈ t.used := by rw [h]
  rw [mem_used, mem_used, ← Bool.not_eq_true, ← Bool.not_eq_true, not_iff_not] at hi
  exact Bool.eq_iff_iff.2 hi

/-- Tying a group brings it into use where one of it was. -/
theorem mem_used_tie : i ∈ (s.tie group).used ↔
    i ∈ s.used ∨ i ∈ group ∧ ∃ j ∈ group, j ∈ s.used := by
  simp only [mem_used, tie]
  -- the group is touched or not, and the tie asks just that
  split
  · next h =>
    have htouched : ∃ j ∈ group, s.contains j = false := by simpa using h
    simp only [contains_eraseAll, htouched, and_true]
    by_cases hi : i ∈ group <;> simp [hi]
  · next h =>
    have huntouched : ¬ ∃ j ∈ group, s.contains j = false := by simpa using h
    simp only [huntouched, and_false, or_false]

/-- Tying takes nothing out of use. -/
theorem used_subset_used_tie : s.used ⊆ (s.tie group).used :=
  fun _ hi => mem_used_tie.2 (.inl hi)

/-- Tying all groups takes nothing out of use. -/
theorem used_subset_used_tieAll : s.used ⊆ (s.tieAll groups).used := by
  induction groups generalizing s with
  | nil => exact Set.Subset.refl _
  | cons group groups ih => exact Set.Subset.trans used_subset_used_tie ih

/-- A round uses nothing that the ties do not ask for. -/
theorem used_tieAll_subset {S : Set Nat} (hS : RespectsTies groups S) (hs : s.used ⊆ S) :
    (s.tieAll groups).used ⊆ S := by
  induction groups generalizing s with
  | nil => exact hs
  | cons group groups ih =>
    refine ih (fun g hg => hS g (List.mem_cons_of_mem _ hg)) fun i hi => ?_
    rcases mem_used_tie.1 hi with hi | ⟨hi, j, hj, hused⟩
    · -- a position was used before, or the tie has added it
      exact hs hi
    · exact hS group List.mem_cons_self ⟨j, hj, hs hused⟩ i hi

/-- A round uses every group of which a position was used before. -/
theorem mem_used_tieAll (hgroup : group ∈ groups) (htouched : ∃ j ∈ group, j ∈ s.used)
    (hi : i ∈ group) : i ∈ (s.tieAll groups).used := by
  induction groups generalizing s with
  | nil => exact absurd hgroup List.not_mem_nil
  | cons g groups ih =>
    rw [tieAll, List.foldl_cons, ← tieAll]
    -- the group is tied here, or later with no fewer positions in use
    rcases List.mem_cons.1 hgroup with rfl | hgroup
    · exact used_subset_used_tieAll (mem_used_tie.2 (.inr ⟨hi, htouched⟩))
    · obtain ⟨j, hj, hused⟩ := htouched
      exact ih hgroup ⟨j, hj, used_subset_used_tie hused⟩

/-- A set that tying does not change respects the ties. -/
theorem respectsTies_of_tieAll_eq (h : s.tieAll groups = s) : RespectsTies groups s.used := by
  intro group hgroup htouched i hi
  have hused := mem_used_tieAll hgroup htouched hi
  rwa [h] at hused

/-! ## Rounds come to rest -/

/-- The groups that still have an unused position. -/
def loose (s : ParamSet) (groups : List (List Nat)) : List (List Nat) :=
  groups.filter fun group => group.any s.contains

/-- A loose group has a position that is not in use. -/
theorem mem_loose : group ∈ s.loose groups ↔ group ∈ groups ∧ ∃ i ∈ group, i ∉ s.used := by
  simp [loose, mem_used]

/-- A tie that changes anything is touched and had an unused position. -/
theorem exists_of_tie_ne (h : s.tie group ≠ s) :
    (∃ j ∈ group, j ∈ s.used) ∧ ∃ i ∈ group, i ∉ s.used := by
  have hnew : ∃ i ∈ (s.tie group).used, i ∉ s.used := by
    by_contra hnone
    push Not at hnone
    exact h (used_inj (Set.Subset.antisymm hnone used_subset_used_tie))
  obtain ⟨i, hi, hunused⟩ := hnew
  obtain ⟨hmem, htouched⟩ := (mem_used_tie.1 hi).resolve_left hunused
  exact ⟨htouched, i, hmem, hunused⟩

/-- A round that changes anything leaves a group without unused positions that had some. -/
theorem exists_of_tieAll_ne (h : s.tieAll groups ≠ s) :
    ∃ group ∈ s.loose groups, ∀ i ∈ group, i ∈ (s.tieAll groups).used := by
  induction groups with
  | nil => exact absurd rfl h
  | cons group groups ih =>
    rw [tieAll, List.foldl_cons, ← tieAll] at h ⊢
    -- Either the first group changes nothing, or it is the one that comes into use.
    by_cases hsame : s.tie group = s
    · rw [hsame] at h ⊢
      obtain ⟨g, hg, hused⟩ := ih h
      obtain ⟨hg, hloose⟩ := mem_loose.1 hg
      exact ⟨g, mem_loose.2 ⟨List.mem_cons_of_mem _ hg, hloose⟩, hused⟩
    · obtain ⟨htouched, hloose⟩ := exists_of_tie_ne hsame
      exact ⟨group, mem_loose.2 ⟨List.mem_cons_self, hloose⟩, fun i hi =>
        used_subset_used_tieAll (mem_used_tie.2 (.inr ⟨hi, htouched⟩))⟩

/-- A round that changes anything leaves fewer groups loose. -/
theorem length_loose_tieAll_lt (h : s.tieAll groups ≠ s) :
    ((s.tieAll groups).loose groups).length < (s.loose groups).length := by
  have hfilter : (s.tieAll groups).loose groups =
      -- What is loose after a round was loose before it.
      (s.loose groups).filter fun group => group.any (s.tieAll groups).contains := by
    rw [loose, loose, List.filter_filter]
    refine List.filter_congr fun group _ => ?_
    rw [Bool.eq_iff_iff, Bool.and_eq_true, List.any_eq_true, List.any_eq_true]
    refine (and_iff_left_of_imp fun ⟨i, hi, hc⟩ => ?_).symm
    exact ⟨i, hi, contains_of_contains_tieAll hc⟩
  obtain ⟨group, hgroup, hused⟩ := exists_of_tieAll_ne h
  rw [hfilter, List.length_filter_lt_length_iff_exists]
  refine ⟨group, hgroup, ?_⟩
  simpa [mem_used] using hused

/-- As many rounds as there are loose groups come to rest. -/
theorem tieAll_iterate {n : Nat} (h : (s.loose groups).length ≤ n) :
    ((tieAll · groups)^[n] s).tieAll groups = (tieAll · groups)^[n] s := by
  -- each round that changes anything uses up a loose group
  induction n generalizing s with
  | zero =>
    by_contra hne
    exact Nat.not_lt_zero _ (Nat.lt_of_lt_of_le (length_loose_tieAll_lt hne) h)
  | succ n ih =>
    by_cases hsame : s.tieAll groups = s
    · rw [Function.iterate_fixed hsame, hsame]
    · exact ih (Nat.le_of_lt_succ (Nat.lt_of_lt_of_le (length_loose_tieAll_lt hsame) h))

/-- Settling makes one round for each group. -/
theorem settle_eq_iterate (s : ParamSet) (groups : List (List Nat)) :
    s.settle groups = (tieAll · groups)^[groups.length] s :=
  List.foldl_const _ _ _

/-- There are at most as many loose groups as groups. -/
theorem length_loose_le (s : ParamSet) (groups : List (List Nat)) :
    (s.loose groups).length ≤ groups.length :=
  List.length_filter_le _ _

/-- The rounds of the analysis come to rest. -/
theorem tieAll_settle (s : ParamSet) (groups : List (List Nat)) :
    (s.settle groups).tieAll groups = s.settle groups := by
  rw [settle_eq_iterate]
  exact tieAll_iterate (s.length_loose_le groups)

/-- Rounds from where another round has led come to the same. -/
theorem settle_tieAll (s : ParamSet) (groups : List (List Nat)) :
    (s.tieAll groups).settle groups = s.settle groups := by
  rw [settle_eq_iterate, ← Function.iterate_succ_apply, Function.iterate_succ_apply',
    ← settle_eq_iterate, tieAll_settle]

/-- Goes on with rounds as long as they change anything. -/
def tieLoop (groups : List (List Nat)) : (fuel : Nat) → ParamSet → Option ParamSet
  | 0, _ => none
  | fuel + 1, s => if s.tieAll groups = s then some s else tieLoop groups fuel (s.tieAll groups)

/-- The loop ends, and after as many rounds as there are groups at the latest. -/
theorem tieLoop_eq_settle {fuel : Nat} (h : (s.loose groups).length < fuel) :
    tieLoop groups fuel s = some (s.settle groups) := by
  induction fuel generalizing s with
  | zero => exact absurd h (Nat.not_lt_zero _)
  | succ fuel ih =>
    rw [tieLoop]
    -- The loop stops where a round changes nothing, and then settling has come there too.
    split
    · next hsame => rw [settle_eq_iterate, Function.iterate_fixed hsame]
    · next hne =>
      have hlt := length_loose_tieAll_lt hne
      rw [ih (by omega), settle_tieAll]

/-- What is used in the end is the least that has what was used before and respects the ties. -/
theorem isLeast_used_settle (s : ParamSet) (groups : List (List Nat)) :
    IsLeast {S | s.used ⊆ S ∧ RespectsTies groups S} (s.settle groups).used := by
  -- Every round only brings into use what any set with the ties has in use.
  have hrounds : ∀ n (s : ParamSet), s.used ⊆ ((tieAll · groups)^[n] s).used ∧
      ∀ S, s.used ⊆ S → RespectsTies groups S → ((tieAll · groups)^[n] s).used ⊆ S := by
    intro n
    induction n with
    | zero => exact fun s => ⟨Set.Subset.refl _, fun S hs _ => hs⟩
    | succ n ih =>
      intro s
      obtain ⟨hkeeps, hleast⟩ := ih (s.tieAll groups)
      exact ⟨Set.Subset.trans used_subset_used_tieAll hkeeps,
        fun S hs hS => hleast S (used_tieAll_subset hS hs) hS⟩
  rw [settle_eq_iterate]
  refine ⟨⟨(hrounds _ s).1, ?_⟩, fun S hS => (hrounds _ s).2 S hS.1 hS.2⟩
  exact respectsTies_of_tieAll_eq (tieAll_iterate (s.length_loose_le groups))

end ParamSet

end Monomorph
