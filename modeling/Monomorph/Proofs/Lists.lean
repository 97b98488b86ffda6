import Mathlib.Data.List.Forall2

/-!
# Lists and results

General facts about lists and about `Except` that several parts of the theory need: when a
sequence of results succeeds, and how two lists are related member by member.
-/

namespace Monomorph

/-! ## Results -/

/-- A result is passed on and succeeds exactly if both steps do. -/
theorem bind_eq_ok_iff {ε α β : Type} {r : Except ε α} {k : α → Except ε β} {b : β} :
    (r >>= k) = .ok b ↔ ∃ a, r = .ok a ∧ k a = .ok b := by
  cases r <;> simp [bind, Except.bind]

/-- A result is changed exactly if there is one. -/
theorem map_eq_ok_iff {ε α β : Type} {r : Except ε α} {f : α → β} {b : β} :
    f <$> r = .ok b ↔ ∃ a, r = .ok a ∧ f a = b := by
  cases r <;> simp [Functor.map, Except.map]

/-! ## Lists that are related member by member -/

/-- Related lists are related member by member, seen from the right. -/
theorem forall₂_exists_left {α β : Type} {R : α → β → Prop} {xs : List α} {ys : List β}
    (h : List.Forall₂ R xs ys) {y : β} (hy : y ∈ ys) : ∃ x ∈ xs, R x y := by
  induction h with
  | nil => exact nomatch hy
  | cons hr hrs ih =>
    rcases List.mem_cons.1 hy with rfl | hy
    · exact ⟨_, List.mem_cons_self, hr⟩
    · obtain ⟨x, hx, hxy⟩ := ih hy
      exact ⟨x, List.mem_cons_of_mem _ hx, hxy⟩

/-- Related lists are related member by member, seen from the left. -/
theorem forall₂_exists_right {α β : Type} {R : α → β → Prop} {xs : List α} {ys : List β}
    (h : List.Forall₂ R xs ys) {x : α} (hx : x ∈ xs) : ∃ y ∈ ys, R x y :=
  forall₂_exists_left h.flip hx

/-- Related lists are related place by place. -/
theorem forall₂_exists_getElem? {α β : Type} {R : α → β → Prop} {xs : List α} {ys : List β}
    (h : List.Forall₂ R xs ys) {i : Nat} {x : α} (hx : xs[i]? = some x) :
    ∃ y, ys[i]? = some y ∧ R x y := by
  induction h generalizing i with
  | nil => exact nomatch hx
  | @cons x' y' xs ys hr hrs ih =>
    cases i with
    | zero =>
      obtain rfl := Option.some.inj hx
      exact ⟨y', rfl, hr⟩
    | succ i => exact ih hx

/-- A relation that the members of the first list carry over to another one. -/
theorem forall₂_imp_mem {α β : Type} {R S : α → β → Prop} {xs : List α} {ys : List β}
    (h : List.Forall₂ R xs ys) (himp : ∀ x ∈ xs, ∀ y, R x y → S x y) : List.Forall₂ S xs ys := by
  induction h with
  | nil => exact .nil
  | cons hx hxs ih =>
    exact .cons (himp _ List.mem_cons_self _ hx)
      (ih fun x hm => himp x (List.mem_cons_of_mem _ hm))

/-- A fold of a monotone step grows with its start and with the members of the list. -/
theorem foldl_le_foldl {α : Type} {f : Nat → α → Nat} {R : α → α → Prop}
    (hmono : ∀ m n x y, m ≤ n → R x y → f m x ≤ f n y) {xs ys : List α}
    (h : List.Forall₂ R xs ys) {m n : Nat} (hmn : m ≤ n) : xs.foldl f m ≤ ys.foldl f n := by
  induction h generalizing m n with
  | nil => exact hmn
  | cons hxy _ ih => exact ih (hmono _ _ _ _ hmn hxy)

/-- Looking up all places of a list gives the list. -/
theorem filterMap_getElem?_range {α : Type} (xs : List α) :
    (List.range xs.length).filterMap (xs[·]?) = xs := by
  have hplaces : (List.range xs.length).map (xs[·]?) = xs.map some := by
    apply List.ext_getElem?
    intro i
    by_cases hi : i < xs.length
    · simp [hi]
    · simp [Nat.le_of_not_lt hi]
  -- Filtering and mapping in one is filtering after mapping, and mapped over all places the lookup
  -- never fails.
  calc (List.range xs.length).filterMap (xs[·]?)
      = ((List.range xs.length).map (xs[·]?)).filterMap id := by simp [List.filterMap_map]
    _ = (xs.map some).filterMap id := by rw [hplaces]
    _ = xs := by simp [List.filterMap_map]

/-- What is found in a list with one more member was found before, or is the new member. -/
theorem getElem?_concat_eq_some {α : Type} {xs : List α} {a b : α} {i : Nat}
    -- the position is one of the list or the one behind it
    (h : (xs ++ [a])[i]? = some b) : xs[i]? = some b ∨ i = xs.length ∧ b = a := by
  rw [List.getElem?_append] at h
  split at h
  · exact .inl h
  · next hle =>
    obtain ⟨hzero, hb⟩ := List.getElem?_eq_some_iff.1 h
    rw [List.length_singleton] at hzero
    exact .inr ⟨by omega, by simpa using hb.symm⟩

/-- Where every member of a list has a property and what follows does not begin with such a
    member, the list can be told from what follows. -/
theorem append_inj_of_span {α : Type} {f : α → Bool} {xs ys xs' ys' : List α}
    (hxs : ∀ a ∈ xs, f a = true) (hys : ∀ a ∈ ys.head?, f a = false)
    (hxs' : ∀ a ∈ xs', f a = true) (hys' : ∀ a ∈ ys'.head?, f a = false)
    (h : xs ++ ys = xs' ++ ys') : xs = xs' ∧ ys = ys' := by
  have hnone : ∀ zs : List α, (∀ a ∈ zs.head?, f a = false) → zs.takeWhile f = [] := by
    intro zs hzs
    cases zs with
    | nil => rfl
    | cons a zs => rw [List.takeWhile_cons, hzs a rfl]; rfl
  -- Both sides are cut at the first element outside the span, so the spans agree.
  have htake := congrArg (List.takeWhile f) h
  rw [List.takeWhile_append_of_pos hxs, List.takeWhile_append_of_pos hxs', hnone _ hys,
    hnone _ hys', List.append_nil, List.append_nil] at htake
  exact ⟨htake, List.append_cancel_left (htake ▸ h)⟩

/-! ## Lists of results -/

/-- A list of results succeeds exactly with the list of all successes. -/
theorem mapM_eq_ok_iff {ε α β : Type} {f : α → Except ε β} {xs : List α} {ys : List β} :
    xs.mapM f = .ok ys ↔ List.Forall₂ (fun x y => f x = .ok y) xs ys := by
  induction xs generalizing ys with
  | nil =>
    simp only [List.mapM_nil, List.forall₂_nil_left_iff]
    exact ⟨fun h => (Except.ok.inj h).symm, fun h => h ▸ rfl⟩
  | cons x xs ih =>
    simp only [List.mapM_cons, List.forall₂_cons_left_iff, bind_eq_ok_iff, ih]
    constructor
    · rintro ⟨y, hy, zs, hzs, h⟩
      exact ⟨y, zs, hy, hzs, (Except.ok.inj h).symm⟩
    · rintro ⟨y, zs, hy, hzs, rfl⟩
      exact ⟨y, hy, zs, hzs, rfl⟩

/-- A list of results succeeds if every member does. -/
theorem exists_mapM_eq_ok_iff {ε α β : Type} {f : α → Except ε β} {xs : List α} :
    (∃ ys, xs.mapM f = .ok ys) ↔ ∀ x ∈ xs, ∃ y, f x = .ok y := by
  simp only [mapM_eq_ok_iff]
  induction xs with
  | nil => simp
  | cons x xs ih =>
    -- For one element more, a list of results is one result and the list of the others.
    rw [List.forall_mem_cons, ← ih]
    constructor
    · rintro ⟨ys, h⟩
      cases h with
      | cons hx hxs => exact ⟨⟨_, hx⟩, _, hxs⟩
    · rintro ⟨⟨y, hy⟩, ys, hys⟩
      exact ⟨y :: ys, .cons hy hys⟩

/-- A step is done for all members exactly if it succeeds for each. -/
theorem forM_eq_ok_iff {ε α : Type} {f : α → Except ε Unit} {xs : List α} {u : Unit} :
    xs.forM f = .ok u ↔ ∀ x ∈ xs, f x = .ok () := by
  induction xs with
  | nil => simp [List.forM, pure, Except.pure]
  | cons x xs ih =>
    -- the first call is made before the others
    have hbind : (x :: xs).forM f = f x >>= fun _ => xs.forM f := rfl
    rw [hbind, bind_eq_ok_iff, List.forall_mem_cons, ← ih]
    exact ⟨fun ⟨_, hx, hxs⟩ => ⟨hx, hxs⟩, fun ⟨hx, hxs⟩ => ⟨(), hx, hxs⟩⟩

/-! ## Increasing lists -/

section Increasing

variable {xs : List Nat} (h : xs.Pairwise (· < ·))
include h

/-- The last member of an increasing list is the greatest. -/
theorem getLast?_eq_some_iff_of_increasing {n : Nat} :
    xs.getLast? = some n ↔ n ∈ xs ∧ ∀ m ∈ xs, m ≤ n := by
  rw [List.getLast?_eq_some_iff]
  constructor
  · rintro ⟨ys, rfl⟩
    refine ⟨List.mem_append_right _ (List.mem_singleton.2 rfl), fun m hm => ?_⟩
    rcases List.mem_append.1 hm with hm | hm
    · exact Nat.le_of_lt ((List.pairwise_append.1 h).2.2 m hm n (List.mem_singleton.2 rfl))
    · exact Nat.le_of_eq (List.mem_singleton.1 hm)
  · rintro ⟨hn, hmax⟩
    obtain ⟨ys, zs, rfl⟩ := List.append_of_mem hn
    cases zs with
    | nil => exact ⟨ys, rfl⟩
    | cons m zs =>
      -- a member behind would be greater
      have hback := (List.pairwise_append.1 h).2.1
      have hlt : n < m := List.rel_of_pairwise_cons hback List.mem_cons_self
      exact absurd (hmax m (by simp)) (Nat.not_le_of_lt hlt)

/-- In an increasing list the least member that has a result gives it. -/
theorem findSome?_eq_some_iff_of_increasing {β : Type} {f : Nat → Option β} {b : β} :
    xs.findSome? f = some b ↔ ∃ n ∈ xs, f n = some b ∧ ∀ m ∈ xs, m < n → f m = none := by
  rw [List.findSome?_eq_some_iff]
  constructor
  · rintro ⟨ys, n, zs, rfl, hn, hnone⟩
    refine ⟨n, by simp, hn, fun m hm hlt => ?_⟩
    rcases List.mem_append.1 hm with hm | hm
    · -- Anything before the hit fails; anything after it is larger.
      exact hnone m hm
    · rcases List.mem_cons.1 hm with rfl | hm
      · exact absurd hlt (Nat.lt_irrefl m)
      · have hgt := List.rel_of_pairwise_cons (List.pairwise_append.1 h).2.1 hm
        exact absurd hlt (Nat.lt_asymm hgt)
  · rintro ⟨n, hn, hb, hnone⟩
    obtain ⟨ys, zs, rfl⟩ := List.append_of_mem hn
    refine ⟨ys, n, zs, rfl, hb, fun m hm => hnone m (by simp [hm]) ?_⟩
    exact (List.pairwise_append.1 h).2.2 m hm n List.mem_cons_self

end Increasing

end Monomorph
