/-!
# Sets of positions

A set of positions, in a parameter list or among the nodes of a graph, is kept as the increasing
list of its members. `Positions.union` joins two sets in one pass over both; `mem_union` and
`increasing_union` say that it is their union and again such a list. Positions that come in some
other order are sorted first (`Positions.sort`).
-/

namespace Monomorph

namespace Positions

/-- Joins the set `x :: xs` with another, where `join` does so for `xs`. -/
def unionCons (x : Nat) (xs : List Nat) (join : List Nat → List Nat) : List Nat → List Nat
  | [] => x :: xs
  | y :: ys =>
    if x < y then x :: join (y :: ys)
    else if x = y then x :: join ys
    else y :: unionCons x xs join ys

/-- The union of two sets. -/
def union : List Nat → List Nat → List Nat
  | [] => id
  | x :: xs => unionCons x xs (union xs)

/-- The union of all sets of a list with a first one. -/
def unionAll (s : List Nat) (sets : List (List Nat)) : List Nat := sets.foldl union s

/-- The set of the members of a list. -/
def ofList (xs : List Nat) : List Nat := unionAll [] (xs.map fun x => [x])

/-- One step of the union keeps the members of both, where the rest of it does. -/
theorem mem_unionCons {i x : Nat} {xs : List Nat} {join : List Nat → List Nat}
    (h : ∀ ys, i ∈ join ys ↔ i ∈ xs ∨ i ∈ ys) (ys : List Nat) :
    i ∈ unionCons x xs join ys ↔ i ∈ x :: xs ∨ i ∈ ys := by
  -- The second set is the one that shrinks here: the first stays whole until its head is passed.
  induction ys with
  | nil => simp [unionCons]
  | cons y ys ih =>
    rw [unionCons]
    split
    · simp [h, or_assoc]
    · split
      · next e => simp [h, ← e]; grind
      · simp [ih]; grind

/-- The union holds the members of both sets and no others. -/
@[simp] theorem mem_union {i : Nat} (xs ys : List Nat) :
    i ∈ union xs ys ↔ i ∈ xs ∨ i ∈ ys := by
  induction xs generalizing ys with
  | nil => simp [union]
  | cons x xs ih => exact mem_unionCons ih ys

/-- A union of many sets holds the members of each. -/
theorem mem_unionAll {i : Nat} (s : List Nat) (sets : List (List Nat)) :
    i ∈ unionAll s sets ↔ i ∈ s ∨ ∃ t ∈ sets, i ∈ t := by
  induction sets generalizing s with
  | nil => simp [unionAll]
  | cons t sets ih =>
    rw [unionAll, List.foldl_cons, ← unionAll, ih, mem_union]
    simp [or_assoc]

/-- The union of a family of sets holds the members of each. -/
theorem mem_unionAll_map {α : Type} {i : Nat} (s : List Nat) (f : α → List Nat) (as : List α) :
    i ∈ unionAll s (as.map f) ↔ i ∈ s ∨ ∃ a ∈ as, i ∈ f a := by
  rw [mem_unionAll]
  refine or_congr_right ⟨fun ⟨t, ht, hi⟩ => ?_, fun ⟨a, ha, hi⟩ => ⟨_, List.mem_map_of_mem ha, hi⟩⟩
  obtain ⟨a, ha, rfl⟩ := List.mem_map.1 ht
  exact ⟨a, ha, hi⟩

/-- The set of a list has the members of the list. -/
@[simp] theorem mem_ofList {i : Nat} (xs : List Nat) : i ∈ ofList xs ↔ i ∈ xs := by
  simp [ofList, mem_unionAll_map]

/-- Whether a list of positions increases from each to the next. -/
abbrev Increasing (xs : List Nat) : Prop := xs.Pairwise (· < ·)

/-- One step of the union gives an increasing list, where the rest of it does. -/
theorem increasing_unionCons {x : Nat} {xs : List Nat} (hx : Increasing (x :: xs))
    (h : ∀ ys, Increasing ys → Increasing (union xs ys)) (ys : List Nat) (hy : Increasing ys) :
    Increasing (unionCons x xs (union xs) ys) := by
  have hxs := List.pairwise_cons.1 hx
  induction ys with
  | nil => exact hx
  | cons y ys ih =>
    have hys := List.pairwise_cons.1 hy
    rw [unionCons]
    -- Whichever head is smaller is put out; what follows it is above it in its own set by order,
    -- and in the other one because that set's head is.
    split
    · next lt =>
      refine List.pairwise_cons.2 ⟨fun i hi => ?_, h _ hy⟩
      rcases (mem_union _ _).1 hi with hi | hi
      · exact hxs.1 i hi
      · rcases List.mem_cons.1 hi with rfl | hi
        · exact lt
        · exact Nat.lt_trans lt (hys.1 i hi)
    · split
      · next e =>
        refine List.pairwise_cons.2 ⟨fun i hi => ?_, h _ hys.2⟩
        rcases (mem_union _ _).1 hi with hi | hi
        · exact hxs.1 i hi
        · exact e ▸ hys.1 i hi
      · next hlt hne =>
        have lt : y < x := by omega
        refine List.pairwise_cons.2 ⟨fun i hi => ?_, ih hys.2⟩
        rcases (mem_unionCons (fun zs => mem_union xs zs) ys).1 hi with hi | hi
        · rcases List.mem_cons.1 hi with rfl | hi
          · exact lt
          · exact Nat.lt_trans lt (hxs.1 i hi)
        · exact hys.1 i hi

/-- The union of increasing lists increases. -/
theorem increasing_union (xs ys : List Nat) (hx : Increasing xs) (hy : Increasing ys) :
    Increasing (union xs ys) := by
  induction xs generalizing ys with
  | nil => exact hy
  | cons x xs ih =>
    exact increasing_unionCons hx (fun ys => ih ys (List.pairwise_cons.1 hx).2) ys hy

/-- A union of many increasing lists increases. -/
theorem increasing_unionAll (s : List Nat) (sets : List (List Nat)) (hs : Increasing s)
    (h : ∀ t ∈ sets, Increasing t) : Increasing (unionAll s sets) := by
  induction sets generalizing s with
  | nil => exact hs
  | cons t sets ih =>
    exact ih _ (increasing_union _ _ hs (h t List.mem_cons_self)) fun u hu =>
      h u (List.mem_cons_of_mem _ hu)

/-- The set of any list increases. -/
theorem increasing_ofList (xs : List Nat) : Increasing (ofList xs) :=
  increasing_unionAll _ _ .nil fun t ht => by
    obtain ⟨x, -, rfl⟩ := List.mem_map.1 ht
    exact List.pairwise_singleton _ x

/-! ## Sorting -/

/-- Puts a position at its place among positions in order. -/
def insert (x : Nat) : List Nat → List Nat
  | [] => [x]
  | y :: ys => if x ≤ y then x :: y :: ys else y :: insert x ys

/-- Positions in order, each as often as before. -/
def sort (xs : List Nat) : List Nat := xs.foldr insert []

/-- Nothing is lost when a position is put at its place. -/
theorem perm_insert (x : Nat) (ys : List Nat) : (insert x ys).Perm (x :: ys) := by
  induction ys with
  | nil => exact .refl _
  | cons y ys ih =>
    rw [insert]
    split
    · exact .refl _
    · exact (ih.cons y).trans (.swap x y ys)

/-- Positions in order stay so when another one is put at its place. -/
theorem pairwise_insert (x : Nat) {ys : List Nat} (h : ys.Pairwise (· ≤ ·)) :
    (insert x ys).Pairwise (· ≤ ·) := by
  induction ys with
  | nil => exact List.pairwise_singleton _ x
  | cons y ys ih =>
    obtain ⟨hy, hys⟩ := List.pairwise_cons.1 h
    rw [insert]
    split
    · next hle =>
      refine List.pairwise_cons.2 ⟨fun z hz => ?_, h⟩
      obtain rfl | hz := List.mem_cons.1 hz
      · exact hle
      · exact Nat.le_trans hle (hy z hz)
    · next hlt =>
      refine List.pairwise_cons.2 ⟨fun z hz => ?_, ih hys⟩
      obtain rfl | hz := List.mem_cons.1 ((perm_insert x ys).mem_iff.1 hz)
      · exact Nat.le_of_not_le hlt
      · exact hy z hz

/-- Sorting loses nothing and adds nothing. -/
theorem sort_perm (xs : List Nat) : (sort xs).Perm xs := by
  induction xs with
  | nil => exact .refl _
  | cons x xs ih => exact (perm_insert x (sort xs)).trans (ih.cons x)

/-- Sorting neither adds nor loses a position. -/
@[simp] theorem mem_sort {i : Nat} {xs : List Nat} : i ∈ sort xs ↔ i ∈ xs :=
  (sort_perm xs).mem_iff

/-- Sorted positions never fall. -/
theorem pairwise_sort (xs : List Nat) : (sort xs).Pairwise (· ≤ ·) := by
  induction xs with
  | nil => exact .nil
  | cons x xs ih => exact pairwise_insert x ih

/-- Different positions increase once they are sorted. -/
theorem increasing_sort {xs : List Nat} (h : xs.Nodup) : Increasing (sort xs) :=
  (pairwise_sort xs).imp₂ (fun _ _ => Nat.lt_of_le_of_ne) ((sort_perm xs).symm.nodup h)

example : union [0, 3, 7] [1, 3, 9] = [0, 1, 3, 7, 9] := by decide

end Positions

end Monomorph
