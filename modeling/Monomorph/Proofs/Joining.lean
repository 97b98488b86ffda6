import Monomorph.Proofs.Coverage

/-!
# Joining is fair

Joining goes on from units that it made itself, so in the end a unit stands for a cluster of given
ones. What one step does is said once (`Cluster.exists_joinSmallest`): it takes the two cheapest
units, which together cost at most twice the average. So whole units are joined and nothing is lost,
and no unit that was made exceeds twice the average of the units there were when it was made
(`Plan.joinsFairly`).
-/

namespace Monomorph

/-! ## What units cost together -/

namespace Plan

variable {us vs : List Plan} {u v : Plan}

/-- What some units cost together. -/
def totalCost : List Plan → Nat
  | [] => 0
  | u :: us => u.cost + totalCost us

/-- Units in a row cost what both rows cost. -/
theorem totalCost_append (us vs : List Plan) :
    totalCost (us ++ vs) = totalCost us + totalCost vs := by
  induction us with
  | nil => simp [totalCost]
  | cons u us ih => simp [totalCost, ih, Nat.add_assoc]

/-- What units cost together does not depend on their order. -/
theorem totalCost_perm (h : us.Perm vs) : totalCost us = totalCost vs := by
  induction h with
  | nil => rfl
  | cons u _ ih => simp [totalCost, ih]
  | swap u v us => simp [totalCost, Nat.add_left_comm]
  | trans _ _ ih ih' => exact ih.trans ih'

/-- Units that cost at least so much cost at least so much each together. -/
theorem mul_length_le_totalCost {n : Nat} (h : ∀ u ∈ us, n ≤ u.cost) :
    n * us.length ≤ totalCost us := by
  induction us with
  | nil => simp [totalCost]
  | cons u us ih =>
    -- one more unit of that cost or more
    have hu := h u List.mem_cons_self
    have hus := ih fun v hv => h v (List.mem_cons_of_mem _ hv)
    rw [List.length_cons, Nat.mul_succ, totalCost]
    omega

/-- Two units that cost no more than any other one cost at most twice the average together. -/
theorem pair_mul_length_le {rest : List Plan} (hrest : ∀ w ∈ rest, u.cost ≤ w.cost)
    (hv : v.cost ≤ u.cost) :
    (u.cost + v.cost) * (rest.length + 2) ≤ 2 * totalCost (rest ++ [u, v]) := by
  have hothers := mul_length_le_totalCost hrest
  -- the smaller of the two costs no more than the larger, and the larger no more than any other
  have hboth : (u.cost + v.cost) * rest.length ≤ 2 * (u.cost * rest.length) := by
    rw [← Nat.mul_assoc]
    exact Nat.mul_le_mul_right _ (by omega)
  rw [totalCost_append, Nat.mul_add]
  simp only [totalCost]
  omega

/-! ## What one step does -/

/-- The last two units are joined and the others are left. -/
theorem joinLast_append (us : List Plan) (u v : Plan) :
    joinLast (us ++ [u, v]) = us ++ [u.absorb v] := by
  induction us with
  | nil => rfl
  | cons w us ih =>
    -- there are at least two units behind `w`
    obtain ⟨a, b, rest, hsplit⟩ : ∃ a b rest, us ++ [u, v] = a :: b :: rest := by
      cases us with
      | nil => exact ⟨u, v, [], rfl⟩
      | cons a us => cases us <;> exact ⟨_, _, _, rfl⟩
    rw [List.cons_append, hsplit, joinLast, ← hsplit, ih, List.cons_append]

/-- A single unit is not joined. -/
theorem joinSmallest_of_length_le_one (h : us.length ≤ 1) : joinSmallest us = us := by
  rcases us with _ | ⟨u, _ | ⟨v, us⟩⟩
  · simp [joinSmallest, joinLast]
  · simp [joinSmallest, joinLast]
  · simp at h

/-- The last join is made in what the joins before it come to. -/
theorem joinTimes_succ (n : Nat) (us : List Plan) :
    joinTimes (n + 1) us = joinSmallest (joinTimes n us) := by
  induction n generalizing us with
  | zero => rfl
  | succ n ih => rw [joinTimes, ih, joinTimes]

instance : Std.Associative absorb where
  assoc u v w := by
    simp only [absorb, String.append_assoc, List.append_assoc, mk.injEq, true_and]
    exact Std.Associative.assoc _ _ _

end Plan

/-- Some units, at least one, that are joined in their order. -/
structure Cluster where
  first : Plan
  rest : List Plan := []

namespace Cluster

variable {g h : Cluster} {gs : List Cluster}

/-- The units of a cluster. -/
def plans (g : Cluster) : List Plan := g.first :: g.rest

/-- What the units of a cluster are joined to. -/
def unit (g : Cluster) : Plan := g.rest.foldl Plan.absorb g.first

/-- The units of one cluster and behind them those of another one. -/
def append (g h : Cluster) : Cluster := ⟨g.first, g.rest ++ h.plans⟩

/-- The units of joined clusters are those of both. -/
theorem plans_append (g h : Cluster) : (g.append h).plans = g.plans ++ h.plans := rfl

/-- Joined clusters are joined to what their units are joined to. -/
theorem unit_append (g h : Cluster) : (g.append h).unit = g.unit.absorb h.unit := by
  show (g.rest ++ h.first :: h.rest).foldl Plan.absorb g.first = _
  rw [List.foldl_append, List.foldl_cons, List.foldl_assoc]
  rfl

/-- What joining concatenates is that of all units of the cluster. -/
theorem flatMap_plans {β : Type} {f : Plan → List β}
    (hf : ∀ u v : Plan, f (u.absorb v) = f u ++ f v) (g : Cluster) :
    f g.unit = g.plans.flatMap f := by
  obtain ⟨first, rest⟩ := g
  show f (rest.foldl Plan.absorb first) = (first :: rest).flatMap f
  induction rest generalizing first with
  | nil => simp
  | cons u rest ih => simp [ih, hf]

/-- What joining concatenates is, over all clusters, that of the given units. -/
theorem perm_flatMap_units {β : Type} {f : Plan → List β} {us : List Plan}
    (hf : ∀ u v : Plan, f (u.absorb v) = f u ++ f v) (hgs : (gs.flatMap plans).Perm us) :
    ((gs.map unit).flatMap f).Perm (us.flatMap f) := by
  refine List.Perm.trans (.of_eq ?_) (hgs.flatMap_right f)
  rw [List.flatMap_map, List.flatMap_assoc]
  exact congrArg (gs.flatMap ·) (funext (flatMap_plans hf))

/-- A cluster costs at most what its units do, as sums are cut at the largest length. -/
theorem cost_unit_le (g : Cluster) : g.unit.cost ≤ Plan.totalCost g.plans := by
  obtain ⟨first, rest⟩ := g
  show (rest.foldl Plan.absorb first).cost ≤ first.cost + Plan.totalCost rest
  induction rest generalizing first with
  | nil => exact Nat.le_refl _
  | cons u rest ih =>
    -- one sum is cut at the greatest number, so the whole is at most the sum
    have hcost : (first.absorb u).cost = min (first.cost + u.cost) maxLength := rfl
    have hle := ih (first.absorb u)
    simp only [List.foldl_cons, Plan.totalCost]
    omega

/-- A cluster that costs less than the sums can hold costs what its units cost together. -/
theorem cost_unit (hg : Plan.totalCost g.plans ≤ maxLength) :
    g.unit.cost = Plan.totalCost g.plans := by
  obtain ⟨first, rest⟩ := g
  show (rest.foldl Plan.absorb first).cost = first.cost + Plan.totalCost rest
  replace hg : first.cost + Plan.totalCost rest ≤ maxLength := hg
  induction rest generalizing first with
  | nil => rfl
  | cons u rest ih =>
    rw [Plan.totalCost] at hg
    -- nothing is cut as long as the whole fits
    have hcost : (first.absorb u).cost = first.cost + u.cost := Nat.min_eq_left (by omega)
    rw [List.foldl_cons, ih _ (by omega), hcost, Plan.totalCost, Nat.add_assoc]

/-- Clusters cost together at most what all their units do. -/
theorem totalCost_units_le (gs : List Cluster) :
    Plan.totalCost (gs.map unit) ≤ Plan.totalCost (gs.flatMap plans) := by
  induction gs with
  | nil => exact Nat.le_refl _
  | cons g gs ih =>
    rw [List.map_cons, List.flatMap_cons, Plan.totalCost, Plan.totalCost_append]
    exact Nat.add_le_add g.cost_unit_le ih

/-- The units of one cluster cost at most what those of all do. -/
theorem totalCost_plans_le (hg : g ∈ gs) :
    Plan.totalCost g.plans ≤ Plan.totalCost (gs.flatMap plans) := by
  induction gs with
  | nil => exact absurd hg List.not_mem_nil
  | cons k gs ih =>
    rw [List.flatMap_cons, Plan.totalCost_append]
    rcases List.mem_cons.1 hg with rfl | hg
    · exact Nat.le_add_right _ _
    · exact Nat.le_trans (ih hg) (Nat.le_add_left _ _)

/-- A bucket is in no more units than units that they are made of. -/
theorem countP_contains_le (b : Bucket) (gs : List Cluster) :
    (gs.map unit).countP (·.buckets.contains b) ≤
      (gs.flatMap plans).countP (·.buckets.contains b) := by
  -- A cluster that has a bucket has a unit that does.
  induction gs with
  | nil => exact Nat.le_refl _
  | cons g gs ih =>
    rw [List.map_cons, List.flatMap_cons, List.countP_append, List.countP_cons]
    split
    · next hb =>
      rw [flatMap_plans (f := Plan.buckets) fun _ _ => rfl, List.contains_iff_mem,
        List.mem_flatMap] at hb
      obtain ⟨u, hu, hb⟩ := hb
      have hpos : 0 < g.plans.countP (·.buckets.contains b) :=
        List.countP_pos_iff.2 ⟨u, hu, List.contains_iff_mem.2 hb⟩
      omega
    · omega

/-- Where no sum is cut, a cluster costs what its units do. -/
theorem cost_unit_of_mem {us : List Plan} (hus : Plan.totalCost us ≤ maxLength)
    (hgs : (gs.flatMap plans).Perm us) (hg : g ∈ gs) : g.unit.cost = Plan.totalCost g.plans := by
  have hle := totalCost_plans_le hg
  rw [Plan.totalCost_perm hgs] at hle
  exact cost_unit (Nat.le_trans hle hus)

/-- One step puts a cluster that costs least behind one that costs least of the others. -/
theorem exists_joinSmallest (gs : List Cluster) (hgs : 2 ≤ gs.length) :
    ∃ rest g h, gs.Perm (rest ++ [g, h]) ∧
      Plan.joinSmallest (gs.map unit) = (rest ++ [g.append h]).map unit ∧
      h.unit.cost ≤ g.unit.cost ∧ ∀ k ∈ rest, g.unit.cost ≤ k.unit.cost := by
  have hperm := List.mergeSort_perm gs fun g h => Plan.le g.unit h.unit
  have hsorted : (gs.mergeSort fun g h => Plan.le g.unit h.unit).Pairwise fun g h =>
      Plan.le g.unit h.unit = true := by
    apply List.pairwise_mergeSort
    · exact fun g h k h₁ h₂ => largerFirst_trans h₁ h₂
    · exact fun g h => largerFirst_total _ _
  have hunits : (gs.map unit).mergeSort Plan.le =
      (gs.mergeSort fun g h => Plan.le g.unit h.unit).map unit :=
    (List.map_mergeSort (s := Plan.le) (f := unit) fun _ _ _ _ => rfl).symm
  generalize (gs.mergeSort fun g h => Plan.le g.unit h.unit) = sorted at hperm hsorted hunits
  -- the last two of the sorted clusters are the cheapest ones
  obtain ⟨rest, g, h, rfl⟩ : ∃ rest g h, sorted = rest ++ [g, h] := by
    have hlength := hperm.length_eq
    rcases List.eq_nil_or_concat sorted with rfl | ⟨init, h, rfl⟩
    · simp at hlength; omega
    · rcases List.eq_nil_or_concat init with rfl | ⟨rest, g, rfl⟩
      · simp at hlength; omega
      · exact ⟨rest, g, h, by simp⟩
  have hcost : ∀ g h : Cluster, Plan.le g.unit h.unit = true → h.unit.cost ≤ g.unit.cost := by
    intro g h hle
    rcases largerFirst_iff.1 hle with hlt | ⟨heq, -⟩
    · exact Nat.le_of_lt hlt
    · exact Nat.le_of_eq heq.symm
  obtain ⟨-, hpair, hrest⟩ := List.pairwise_append.1 hsorted
  refine ⟨rest, g, h, hperm.symm, ?_, ?_, ?_⟩
  · rw [Plan.joinSmallest, hunits, List.map_append, List.map_cons, List.map_cons, List.map_nil,
      Plan.joinLast_append, List.map_append, List.map_cons, List.map_nil, unit_append]
  · exact hcost g h (List.rel_of_pairwise_cons hpair List.mem_cons_self)
  · exact fun k hk => hcost k g (hrest k hk g List.mem_cons_self)

/-- Joining two clusters keeps the units. -/
theorem perm_plans_append {rest : List Cluster} {us : List Plan}
    (hperm : gs.Perm (rest ++ [g, h])) (hgs : (gs.flatMap plans).Perm us) :
    ((rest ++ [g.append h]).flatMap plans).Perm us := by
  refine List.Perm.trans (.of_eq ?_) ((hperm.flatMap_right _).symm.trans hgs)
  simp [plans_append]

/-- Two clusters that cost no more than any other one cost at most twice the average together. -/
theorem cost_append_mul_le {rest : List Cluster} (hperm : gs.Perm (rest ++ [g, h]))
    (hle : h.unit.cost ≤ g.unit.cost) (hrest : ∀ k ∈ rest, g.unit.cost ≤ k.unit.cost) :
    (g.append h).unit.cost * gs.length ≤ 2 * Plan.totalCost (gs.flatMap plans) := by
  -- The last two in the order cost no more than any other cluster, so what holds of units applies
  -- to them.
  have hlength : gs.length = (rest.map unit).length + 2 := by simp [hperm.length_eq]
  have htotal : Plan.totalCost (rest.map unit ++ [g.unit, h.unit]) ≤
      Plan.totalCost (gs.flatMap plans) := by
    rw [Plan.totalCost_perm (hperm.flatMap_right _)]
    simpa using totalCost_units_le (rest ++ [g, h])
  rw [unit_append, hlength]
  calc (g.unit.absorb h.unit).cost * ((rest.map unit).length + 2)
      ≤ (g.unit.cost + h.unit.cost) * ((rest.map unit).length + 2) :=
        Nat.mul_le_mul_right _ (Nat.min_le_left _ _)
    _ ≤ 2 * Plan.totalCost (rest.map unit ++ [g.unit, h.unit]) :=
        Plan.pair_mul_length_le (List.forall_mem_map.2 hrest) hle
    _ ≤ 2 * Plan.totalCost (gs.flatMap plans) := Nat.mul_le_mul_left 2 htotal

end Cluster

/-! ## A number of steps -/

namespace Plan

variable {us : List Plan}

/-- After some steps every unit is that of a cluster of given ones, and the clusters of several
    units cost at most twice the average of the units there were before the last step. -/
theorem exists_clusters (n : Nat) (us : List Plan) : ∃ gs : List Cluster,
    joinTimes n us = gs.map Cluster.unit ∧ (gs.flatMap Cluster.plans).Perm us ∧
      ∀ g ∈ gs, g.rest = [] ∨
        0 < n ∧ g.unit.cost * (us.length - n + 1) ≤ 2 * totalCost us := by
  induction n with
  | zero =>
    refine ⟨us.map fun u => ⟨u, []⟩, ?_, ?_, ?_⟩
    · rw [List.map_map]
      exact (List.map_id us).symm
    · rw [List.flatMap_map]
      exact .of_eq (List.flatMap_singleton' us)
    · intro g hg
      obtain ⟨u, -, rfl⟩ := List.mem_map.1 hg
      exact .inl rfl
  | succ n ih =>
    obtain ⟨gs, hunits, hplans, hbound⟩ := ih
    -- a bound for more units holds for fewer
    have hmono : ∀ c, c * (us.length - n + 1) ≤ 2 * totalCost us →
        c * (us.length - (n + 1) + 1) ≤ 2 * totalCost us := fun c hc =>
      Nat.le_trans (Nat.mul_le_mul_left c (by omega)) hc
    rw [joinTimes_succ, hunits]
    by_cases hgs : gs.length ≤ 1
    · refine ⟨gs, joinSmallest_of_length_le_one (by simpa using hgs), hplans, fun g hg => ?_⟩
      exact (hbound g hg).imp_right fun hg => ⟨Nat.succ_pos n, hmono _ hg.2⟩
    · obtain ⟨rest, g, h, hperm, hjoin, hle, hrest⟩ := Cluster.exists_joinSmallest gs (by omega)
      refine ⟨rest ++ [g.append h], hjoin, Cluster.perm_plans_append hperm hplans, fun k hk => ?_⟩
      rcases List.mem_append.1 hk with hk | hk
      · have hk' := hbound k (hperm.mem_iff.2 (List.mem_append_left _ hk))
        exact hk'.imp_right fun hk => ⟨Nat.succ_pos n, hmono _ hk.2⟩
      · right
        have hcost := Cluster.cost_append_mul_le hperm hle hrest
        rw [totalCost_perm hplans] at hcost
        rw [List.mem_singleton.1 hk]
        refine ⟨Nat.succ_pos n, Nat.le_trans (Nat.mul_le_mul_left _ ?_) hcost⟩
        have hcount := congrArg List.length hunits
        rw [List.length_map] at hcount
        by_cases hn : n < us.length
        · rw [length_joinTimes _ _ hn] at hcount
          omega
        · omega

/-- What one more step makes of two units costs what they cost together, at most twice the
    average. -/
theorem exists_step (h : totalCost us ≤ maxLength) {n : Nat} (hn : n + 1 < us.length) :
    ∃ rest u v, (joinTimes n us).Perm (rest ++ [u, v]) ∧
      joinTimes (n + 1) us = rest ++ [u.absorb v] ∧ (u.absorb v).cost = u.cost + v.cost ∧
        (u.absorb v).cost * (us.length - n) ≤ 2 * totalCost us := by
  -- After some joins the units are clusters of the given ones, and the next join takes the two
  -- smallest clusters.
  obtain ⟨gs, hunits, hplans, -⟩ := exists_clusters n us
  have hlength : gs.length = us.length - n := by
    rw [← length_joinTimes n us (by omega), hunits, List.length_map]
  obtain ⟨rest, k, l, hperm, hjoin, hle, hrest⟩ := Cluster.exists_joinSmallest gs (by omega)
  refine ⟨rest.map Cluster.unit, k.unit, l.unit, ?_, ?_, ?_, ?_⟩
  · rw [hunits]
    simpa using hperm.map Cluster.unit
  · rw [joinTimes_succ, hunits, hjoin]
    simp [Cluster.unit_append]
  · -- the two are clusters of given units, and so is what they are joined to
    have hplans' := Cluster.perm_plans_append hperm hplans
    have hk : k ∈ gs := hperm.mem_iff.2 (by simp)
    have hl : l ∈ gs := hperm.mem_iff.2 (by simp)
    have hkl : k.append l ∈ rest ++ [k.append l] := by simp
    rw [← Cluster.unit_append, Cluster.cost_unit_of_mem h hplans' hkl,
      Cluster.cost_unit_of_mem h hplans hk, Cluster.cost_unit_of_mem h hplans hl,
      Cluster.plans_append, totalCost_append]
  · have hmul := Cluster.cost_append_mul_le hperm hle hrest
    rwa [totalCost_perm hplans, hlength, Cluster.unit_append] at hmul

/-! ## The main result -/

/-- What it means that units are joined fairly down to a number, where none wanted counts as
    one. -/
structure JoinsFairly (us : List Plan) (wanted : Nat) : Prop where
  length : (mergeTo wanted us).length = min us.length (max wanted 1)
  nodes : ((mergeTo wanted us).flatMap Plan.nodes).Perm (us.flatMap Plan.nodes)
  buckets : ((mergeTo wanted us).flatMap Plan.buckets).Perm (us.flatMap Plan.buckets)
  /-- No bucket is in more units than before. -/
  whole : ∀ b, (mergeTo wanted us).countP (·.buckets.contains b) ≤
    us.countP (·.buckets.contains b)
  /-- Every unit is made of whole given ones, each of which went into one unit, and costs what they
      cost together. -/
  clusters : ∃ gs : List Cluster, (gs.flatMap Cluster.plans).Perm us ∧
    List.Forall₂ (fun g v => v.nodes = g.plans.flatMap Plan.nodes ∧
      v.buckets = g.plans.flatMap Plan.buckets ∧ v.cost = totalCost g.plans ∧
      (g.rest = [] ∨ v.cost * (max wanted 1 + 1) ≤ 2 * totalCost us)) gs (mergeTo wanted us)
  /-- Every step makes one unit of two, and the unit made is not much more than the average. -/
  steps : ∀ n < us.length - max wanted 1, ∃ rest u v,
    (joinTimes n us).Perm (rest ++ [u, v]) ∧ joinTimes (n + 1) us = rest ++ [u.absorb v] ∧
      (u.absorb v).cost = u.cost + v.cost ∧
      (u.absorb v).cost * (max wanted 1 + 1) ≤ 2 * totalCost us
  bound : ∀ v ∈ mergeTo wanted us,
    (∃ u ∈ us, v.cost ≤ u.cost) ∨ v.cost ≤ 2 * totalCost us / (max wanted 1 + 1)

/-- Units whose costs can be added up are joined fairly. -/
theorem joinsFairly (us : List Plan) (wanted : Nat) (h : totalCost us ≤ maxLength) :
    JoinsFairly us wanted := by
  obtain ⟨gs, hunits, hplans, hbound⟩ := exists_clusters (us.length - max wanted 1) us
  replace hunits : mergeTo wanted us = gs.map Cluster.unit := hunits
  -- if anything was joined there were more units than wanted
  replace hbound : ∀ g ∈ gs, g.rest = [] ∨
      g.unit.cost * (max wanted 1 + 1) ≤ 2 * totalCost us := by
    intro g hg
    rcases hbound g hg with hrest | ⟨hpos, hle⟩
    · exact .inl hrest
    · right
      rwa [show us.length - (us.length - max wanted 1) = max wanted 1 by omega] at hle
  constructor
  case length => exact length_mergeTo wanted us
  case nodes =>
    rw [hunits]
    exact Cluster.perm_flatMap_units (fun _ _ => rfl) hplans
  case buckets =>
    rw [hunits]
    exact Cluster.perm_flatMap_units (fun _ _ => rfl) hplans
  case whole =>
    intro b
    rw [hunits, ← hplans.countP_eq]
    exact Cluster.countP_contains_le b gs
  case clusters =>
    refine ⟨gs, hplans, ?_⟩
    rw [hunits, List.forall₂_map_right_iff, List.forall₂_same]
    intro g hg
    exact ⟨g.flatMap_plans fun _ _ => rfl, g.flatMap_plans fun _ _ => rfl,
      Cluster.cost_unit_of_mem h hplans hg, hbound g hg⟩
  case steps =>
    intro n hn
    obtain ⟨rest, u, v, hperm, hjoin, hsum, hmul⟩ := exists_step h (by omega : n + 1 < us.length)
    exact ⟨rest, u, v, hperm, hjoin, hsum, Nat.le_trans (Nat.mul_le_mul_left _ (by omega)) hmul⟩
  case bound =>
    intro v hv
    rw [hunits] at hv
    obtain ⟨g, hg, rfl⟩ := List.mem_map.1 hv
    rcases hbound g hg with hrest | hle
    · refine .inl ⟨g.first, hplans.mem_iff.1 (List.mem_flatMap.2 ⟨g, hg, List.mem_cons_self⟩), ?_⟩
      rw [Cluster.unit, hrest]
      exact Nat.le_refl _
    · exact .inr ((Nat.le_div_iff_mul_le (Nat.succ_pos _)).2 hle)

/-- Four units of different costs. -/
def four : List Plan :=
  [{ name := "a", buckets := [.stable 0], nodes := [0, 4], cost := 5 },
    { name := "b", buckets := [.stable 1], nodes := [1], cost := 1 },
    { name := "c", buckets := [.stable 2], nodes := [2], cost := 3 },
    { name := "d", buckets := [.stable 3, .volatile none], nodes := [3, 5], cost := 2 }]

/-- Joined down to two, the cheapest unit goes to the second cheapest and both go to the next, which
    costs as much as they do and has the lesser name. -/
theorem mergeTo_four :
    (mergeTo 2 four).map (fun u => (u.name, u.cost)) = [("a", 5), ("c--d--b", 6)] := by
  have hname : Text.le "c" "d--b" = true := by decide
  simp [mergeTo, joinTimes, joinSmallest, joinLast, four, List.mergeSort, le, largerFirst, absorb,
    satAdd, maxLength, hname]

/-- Four units are joined to two, and the costs are split as fairly as is promised. -/
theorem joinsFairly_four : totalCost four ≤ maxLength ∧
    (mergeTo 2 four).map (fun u => (u.name, u.cost)) = [("a", 5), ("c--d--b", 6)] ∧
      JoinsFairly four 2 :=
  ⟨by decide, mergeTo_four, joinsFairly four 2 (by decide)⟩

end Plan

end Monomorph
