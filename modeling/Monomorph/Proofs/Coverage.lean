import Mathlib.Data.List.Dedup
import Monomorph.Proofs.Linkage

/-!
# Cutting loses nothing

Whatever was collected and however many units are wanted, cutting a collection succeeds: every
generated instance is in exactly one unit, buckets stay whole, and what a unit says of its size is
true (`Collection.IsCut`). What holds of the units while they are put together is said for adding
a node and for joining two units; `Collection.forall_place` and `Plan.forall_mergeTo` carry it to
the plans.
-/

namespace Monomorph

/-! ## Sums that stop growing -/

instance : Std.Associative satAdd where
  assoc a b c := by
    simp only [satAdd_eq_min]
    omega

instance : Std.Commutative satAdd where
  comm a b := by
    simp only [satAdd_eq_min]
    omega

/-- The sum of some sizes, which stops growing at `maxLength`. -/
def satSum (ns : List Nat) : Nat := ns.foldl satAdd 0

/-- Numbers in a row sum up to the sum of both rows. -/
theorem satSum_append (ms ns : List Nat) : satSum (ms ++ ns) = satAdd (satSum ms) (satSum ns) := by
  -- a sum does not exceed the point where it stops, so adding nothing leaves it as it is
  have hstop : satAdd (satSum ms) 0 = satSum ms := by
    have hsum : satSum ms = min (ms.foldl (· + ·) 0) maxLength :=
      foldl_satAdd ms 0 (Nat.zero_le _)
    rw [satAdd_eq_min]
    omega
  have happend : satSum (ms ++ ns) = ns.foldl satAdd (satSum ms) := List.foldl_append
  rw [happend, ← hstop, List.foldl_assoc, hstop]
  rfl

/-- A sum does not depend on the order. -/
theorem satSum_perm {ms ns : List Nat} (h : ms.Perm ns) : satSum ms = satSum ns := h.foldl_op_eq

/-! ## Plans -/

namespace Plan

variable {us : List Plan} {P : Plan → Prop}

/-- What joining keeps holds after some joins. -/
theorem forall_joinTimes (habsorb : ∀ u v, P u → P v → P (u.absorb v)) (n : Nat)
    (h : ∀ u ∈ us, P u) : ∀ u ∈ joinTimes n us, P u := by
  induction n generalizing us with
  | zero => exact h
  | succ n ih =>
    -- one join puts two of the sorted units together and leaves the others
    refine ih fun u hu => ?_
    have hsorted : ∀ v ∈ us.mergeSort le, P v := fun v hv => h v (List.mem_mergeSort.1 hv)
    obtain hu | ⟨v, hv, w, hw, rfl⟩ := mem_joinLast hu
    · exact hsorted u hu
    · exact habsorb v w (hsorted v hv) (hsorted w hw)

/-- What joining two units keeps holds of all units that are left. -/
theorem forall_mergeTo (habsorb : ∀ u v, P u → P v → P (u.absorb v)) (wanted : Nat)
    (h : ∀ u ∈ us, P u) : ∀ u ∈ mergeTo wanted us, P u :=
  forall_joinTimes habsorb _ h

/-- Merging leaves the wanted number of units, where there were as many. -/
theorem length_mergeTo (wanted : Nat) (us : List Plan) :
    (mergeTo wanted us).length = min us.length (max wanted 1) := by
  by_cases hus : us = []
  · simp [hus, mergeTo, joinTimes]
  · have hpos := List.length_pos_of_ne_nil hus
    rw [mergeTo, length_joinTimes _ _ (by omega)]
    omega

/-- Adding a node names a unit for it, if there is none yet. -/
theorem mem_names_addTo {name n : String} {b : Bucket} {i : NodeId} {size : Nat} :
    n ∈ (addTo name b i size us).map Plan.name ↔ n = name ∨ n ∈ us.map Plan.name := by
  induction us with
  | nil => simp [addTo, add]
  | cons u us ih =>
    rw [addTo]
    -- the unit of the name is found here, or it is further on
    split
    · next hname => simp [add, hname]
    · rw [List.map_cons, List.mem_cons, ih, List.map_cons, List.mem_cons, or_left_comm]

end Plan

namespace Collection

variable {p : Program} {c : Collection} {config : Config} {us : List Plan} {ids : List NodeId}

/-- What holds of a new unit and is kept when a node is added holds of all units at first. -/
theorem forall_place {P : Plan → Prop} (hnew : ∀ name, P { name })
    (hadd : ∀ u b i, P u → P (u.add b i (c.sizeOf i))) : ∀ u ∈ c.place p, P u := by
  have step : ∀ us i, (∀ u ∈ us, P u) → ∀ u ∈ c.placeNode p us i, P u := by
    intro us i h u hu
    unfold placeNode at hu
    split at hu
    · obtain hu | ⟨v, -, hv, rfl⟩ := Plan.mem_addTo hu
      · exact h u hu
      · apply hadd
        obtain hv | rfl := hv
        · exact h v hv
        · exact hnew _
    · exact h u hu
  -- by induction on the nodes still to be placed
  have run : ∀ (ids : List NodeId) us, (∀ u ∈ us, P u) →
      ∀ u ∈ ids.foldl (c.placeNode p) us, P u := by
    intro ids
    induction ids with
    | nil => exact fun us h => h
    | cons i ids ih => exact fun us h => ih _ (step us i h)
  intro u hu
  exact run c.graph.ids [] (fun u hu => nomatch hu) u (List.mem_mergeSort.1 hu)

/-- A unit costs what its nodes amount to. -/
theorem cost_plans : ∀ u ∈ c.plans p config, u.cost = satSum (u.nodes.map c.sizeOf) := by
  refine Plan.forall_mergeTo (P := fun u => u.cost = satSum (u.nodes.map c.sizeOf)) ?_ config.units
    (forall_place (fun name => rfl) ?_)
  · -- Joining adds the costs, and placing adds the size of the node.
    intro u v hu hv
    show satAdd u.cost v.cost = satSum ((u.nodes ++ v.nodes).map c.sizeOf)
    rw [List.map_append, satSum_append, hu, hv]
  · intro u b i hu
    show satAdd u.cost (c.sizeOf i) = satSum ((u.nodes ++ [i]).map c.sizeOf)
    rw [List.map_append, satSum_append, hu]
    have hone : satSum ([i].map c.sizeOf) = satAdd 0 (c.sizeOf i) := rfl
    rw [hone]
    simp only [satAdd_eq_min]
    omega

variable (p c) in
/-- The names of the units for the buckets of all nodes. -/
def bucketNames : List String := (c.graph.ids.filterMap c.bucket?).map p.unitName

/-- There is one unit at first for every name. -/
theorem length_place : (c.place p).length = (c.bucketNames p).dedup.length := by
  have names : ∀ (ids : List NodeId) us n, n ∈ (ids.foldl (c.placeNode p) us).map Plan.name ↔
      n ∈ us.map Plan.name ∨ n ∈ (ids.filterMap c.bucket?).map p.unitName := by
    intro ids
    induction ids with
    | nil => simp
    | cons i ids ih =>
      intro us n
      rw [List.foldl_cons, ih]
      unfold placeNode
      cases hb : c.bucket? i with
      | none => simp only [List.filterMap_cons, hb]
      | some b =>
        simp only [List.filterMap_cons, hb, List.map_cons, List.mem_cons, Plan.mem_names_addTo]
        rw [or_assoc, or_left_comm]
  -- no two units have one name, so there are as many units as names
  have hplaced := (@placed_nil p c).foldl c.graph.ids
  have hperm : ((c.graph.ids.foldl (c.placeNode p) []).map Plan.name).Perm
      (c.bucketNames p).dedup := by
    rw [List.perm_ext_iff_of_nodup hplaced.names (List.nodup_dedup _)]
    intro n
    rw [names, List.mem_dedup, bucketNames]
    simp
  rw [place, List.length_mergeSort, ← hperm.length_eq, List.length_map]

/-! ## Units -/

/-- A node in a unit has a member. -/
theorem exists_member_of_mem (h : c.Grouped c.graph.ids us) {u : Plan} (hu : u ∈ us) {i : NodeId}
    (hi : i ∈ u.nodes) : ∃ m, c.member? i = some m := by
  have hmem := (List.mem_filter.1 (h.nodes.mem_iff.1 (List.mem_flatMap.2 ⟨u, hu, hi⟩))).1
  exact ⟨_, List.getElem?_eq_getElem (List.mem_range.1 hmem)⟩

/-- What the items of a unit say is what its nodes say. -/
theorem perm_items_unitOf {β : Type} {f : UnitItem → β} {g : Member → β} {home : Nat} {u : Plan}
    {readable : Bool}
    (hfg : ∀ i it, c.unitItem us home i = some it → (c.member? i).map g = some (f it)) :
    ((c.unitOf p readable us home u).items.map f).Perm
      (u.nodes.filterMap fun i => (c.member? i).map g) := by
  refine ((List.mergeSort_perm _ _).map f).trans (.of_eq ?_)
  rw [List.map_filterMap]
  -- what the unit holds for a node has what its member has
  refine List.filterMap_congr fun i _ => ?_
  cases hitem : c.unitItem us home i with
  | none =>
    rw [Option.map_eq_none_iff.1 hitem]
    rfl
  | some it => exact (hfg i it hitem).symm

/-- The nodes of all units together are the generated members. -/
theorem Grouped.perm_members (h : c.Grouped c.graph.ids us) {β : Type} (g : Member → β) :
    ((us.flatMap Plan.nodes).filterMap fun i => (c.member? i).map g).Perm
      ((c.members.filter fun m => m.info.isGenerated).map g) := by
  have hmembers : c.members = c.graph.ids.filterMap c.member? :=
    (filterMap_getElem?_range c.graph.nodes).symm
  -- The nodes in units are those with a bucket, which are those code is generated for.
  refine (h.nodes.filterMap _).trans (.of_eq ?_)
  rw [hmembers, List.filter_filterMap, List.map_filterMap, List.filterMap_filter]
  refine List.filterMap_congr fun i _ => ?_
  cases hm : c.member? i with
  | none => simp
  | some m =>
    have hgen := isSome_bucket?_iff hm
    cases hb : (c.bucket? i).isSome <;> cases hg : m.info.isGenerated <;> simp_all

/-- The items of all units together are the generated members. -/
theorem Grouped.perm_items (h : c.Grouped c.graph.ids us) {β : Type} {f : UnitItem → β}
    {g : Member → β} {readable : Bool}
    (hfg : ∀ home i it, c.unitItem us home i = some it → (c.member? i).map g = some (f it)) :
    (((us.mapIdx (c.unitOf p readable us)).flatMap CodegenUnit.items).map f).Perm
      ((c.members.filter fun m => m.info.isGenerated).map g) := by
  refine List.Perm.trans ?_ (h.perm_members g)
  rw [List.mapIdx_eq_zipIdx_map, List.flatMap_map, List.map_flatMap]
  -- the number of a unit makes no difference to the nodes in it
  have hnodes : us.flatMap Plan.nodes = us.zipIdx.flatMap fun x => x.1.nodes := by
    conv => lhs; rw [← List.zipIdx_map_fst 0 us]
    exact List.flatMap_map _ _ _
  rw [hnodes, List.filterMap_flatMap]
  exact List.Perm.flatMap_left _ fun x _ => perm_items_unitOf (hfg x.2)

/-- Nodes of one bucket have one home. -/
theorem Grouped.homeOf?_congr (h : c.Grouped c.graph.ids us) {i j : NodeId} {m n : Member}
    (hm : c.member? i = some m) (hn : c.member? j = some n) (hb : c.bucket? i = c.bucket? j) :
    homeOf? us i = homeOf? us j := by
  have half : ∀ {i j : NodeId} {m n : Member}, c.member? i = some m → c.member? j = some n →
      c.bucket? i = c.bucket? j → ∀ home, homeOf? us i = some home → homeOf? us j = some home := by
    intro i j m n hm hn hb home hhome
    obtain ⟨u, hu, hiu⟩ := h.homeOf?_eq_some_iff.1 hhome
    have hgen := (isSome_bucket?_iff hn).1 (hb ▸ (isSome_bucket?_iff hm).2
      ((h.exists_homeOf?_iff hm).1 ⟨home, hhome⟩))
    obtain ⟨home', hhome'⟩ := (h.exists_homeOf?_iff hn).2 hgen
    obtain ⟨v, hv, hjv⟩ := h.homeOf?_eq_some_iff.1 hhome'
    -- both units have the bucket, and a bucket lies in one unit
    obtain ⟨b, hbu, hib⟩ := h.bucket u (List.mem_of_getElem? hu) i hiu
    obtain ⟨b', hbv, hjb⟩ := h.bucket v (List.mem_of_getElem? hv) j hjv
    obtain rfl := Option.some.inj (hib.symm.trans (hb.trans hjb))
    rw [hhome', place_unique_of_nodup_flatMap h.buckets hv hu hbv hbu]
  apply Option.ext
  intro home
  exact ⟨half hm hn hb home, half hn hm hb.symm home⟩

/-- A unit that is made of a plan holds all nodes of a bucket or none. -/
theorem contains_unitOf_congr (h : c.Grouped c.graph.ids us)
    (hnodup : (c.members.map Member.inst).Nodup) {readable : Bool} {home : Nat} {u : Plan}
    (hu : us[home]? = some u) {i j : NodeId} {m n : Member} (hm : c.member? i = some m)
    (hn : c.member? j = some n) (hb : c.bucket? i = c.bucket? j) :
    (c.unitOf p readable us home u).contains m.inst =
      (c.unitOf p readable us home u).contains n.inst := by
  -- a unit holds the instance of a node if it is the node's home
  have hcontains : ∀ {i : NodeId} {m : Member}, c.member? i = some m →
      ((c.unitOf p readable us home u).contains m.inst = true ↔ homeOf? us i = some home) := by
    intro i m hm
    rw [CodegenUnit.contains, Option.isSome_iff_exists]
    simp only [find?_unitOf_eq_some_iff h hnodup hu hm]
    simp [unitItem, hm]
  rw [Bool.eq_iff_iff, hcontains hm, hcontains hn, h.homeOf?_congr hm hn hb]

/-- Items in the order of their symbols, of which none occurs twice, are in strict order. -/
theorem pairwise_items_unitOf {readable : Bool} {home : Nat} {u : Plan}
    (h : ((c.unitOf p readable us home u).items.map UnitItem.symbol).Nodup) :
    (c.unitOf p readable us home u).items.Pairwise fun a b => a.symbol < b.symbol := by
  -- in the order of symbols, and no symbol occurs twice
  have hsorted : (c.unitOf p readable us home u).items.Pairwise fun a b =>
      Text.le a.symbol b.symbol = true := by
    unfold unitOf
    apply List.pairwise_mergeSort
    · exact fun a b d h h' => Text.le_trans h h'
    · exact fun a b => Text.le_total a.symbol b.symbol
  exact hsorted.imp₂ (fun a b hle hne => Text.lt_of_le_of_ne hle hne) (List.pairwise_map.1 h)

/-! ## The main result -/

/-- What it means that units are a cut of a collection. -/
structure IsCut (p : Program) (c : Collection) (config : Config) (units : List CodegenUnit) :
    Prop where
  /-- Every generated instance is in one unit, once, and no other instance is in any. -/
  placed : ∀ m ∈ c.members, ((units.flatMap CodegenUnit.items).map UnitItem.inst).count m.inst =
    if m.info.isGenerated then 1 else 0
  /-- Every item is a member, with its symbol and its size. -/
  item : ∀ u ∈ units, ∀ it ∈ u.items, ∃ m ∈ c.members, it.inst = m.inst ∧ it.symbol = m.symbol ∧
    it.visibility = m.info.provenance.visibility ∧ it.size = m.info.size
  symbols : ((units.flatMap CodegenUnit.items).map UnitItem.symbol).Nodup
  nonempty : ∀ u ∈ units, u.items ≠ []
  /-- Instances of one bucket are in the same unit. -/
  whole : ∀ {i j m n}, c.member? i = some m → c.member? j = some n → c.bucket? i = c.bucket? j →
    ∀ u ∈ units, u.contains m.inst = u.contains n.inst
  length : units.length = min (c.bucketNames p).dedup.length (max config.units 1)
  cost : ∀ u ∈ units, u.cost = satSum (u.items.map UnitItem.size)
  sorted : ∀ u ∈ units, u.items.Pairwise fun a b => a.symbol < b.symbol
  /-- Units are in the order of their costs, the largest first, and then of their names. -/
  ordered : units.Pairwise fun u v => v.cost < u.cost ∨ u.cost = v.cost ∧ u.name ≤ v.name

/-- Any collection of different instances with different symbols is cut into units. -/
theorem exists_partition_isCut (hinsts : (c.members.map Member.inst).Nodup)
    (hsymbols : (c.members.map Member.symbol).Nodup) :
    ∃ units, c.partition p config = .ok units ∧ c.IsCut p config units := by
  refine ⟨_, partition_eq_ok_iff.2 rfl, ?_⟩
  have hgrouped := grouped_plans (p := p) (c := c) config
  generalize hus : c.plans p config = us at hgrouped
  have hperm := List.mergeSort_perm (us.mapIdx (c.unitOf p config.readableNames us)) CodegenUnit.le
  generalize hunits : (us.mapIdx (c.unitOf p config.readableNames us)).mergeSort CodegenUnit.le =
    units at hperm
  have hunit : ∀ u ∈ units, ∃ home v, us[home]? = some v ∧
      u = c.unitOf p config.readableNames us home v := by
    intro u hu
    obtain ⟨home, hlt, rfl⟩ := List.mem_mapIdx.1 (hperm.mem_iff.1 hu)
    exact ⟨home, _, List.getElem?_eq_getElem hlt, rfl⟩
  have hitems : ∀ {β : Type} {f : UnitItem → β} {g : Member → β},
      (∀ home i it, c.unitItem us home i = some it → (c.member? i).map g = some (f it)) →
      ((units.flatMap CodegenUnit.items).map f).Perm
        ((c.members.filter fun m => m.info.isGenerated).map g) :=
    fun hfg => ((hperm.flatMap_right _).map _).trans (hgrouped.perm_items hfg)
  have hnodup : ((units.flatMap CodegenUnit.items).map UnitItem.symbol).Nodup := by
    refine (hitems fun home i it hit => ?_).symm.nodup
      (hsymbols.sublist (List.filter_sublist.map Member.symbol))
    obtain ⟨m, hm, rfl⟩ := Option.map_eq_some_iff.1 hit
    rw [hm]
    rfl
  constructor
  case placed =>
    intro m hm
    have hinst := hitems (f := UnitItem.inst) (g := Member.inst) fun home i it hit => by
      obtain ⟨m, hm, rfl⟩ := Option.map_eq_some_iff.1 hit
      rw [hm]
      rfl
    -- only the member itself has its instance, so that one counts if the member is generated
    have hmem : m.inst ∈ (c.members.filter fun m => m.info.isGenerated).map Member.inst ↔
        m.info.isGenerated = true := by
      constructor
      · intro hmem
        obtain ⟨n, hn, he⟩ := List.mem_map.1 hmem
        obtain ⟨hn, hgen⟩ := List.mem_filter.1 hn
        rwa [← List.inj_on_of_nodup_map hinsts hn hm he]
      · exact fun hgen => List.mem_map_of_mem (List.mem_filter.2 ⟨hm, hgen⟩)
    rw [hinst.count_eq, (hinsts.sublist (List.filter_sublist.map Member.inst)).count]
    simp only [hmem]
  case item =>
    intro u hu it hit
    obtain ⟨home, v, hv, rfl⟩ := hunit u hu
    obtain ⟨i, hi, hitem⟩ := List.mem_filterMap.1 (List.mem_mergeSort.1 hit)
    obtain ⟨m, hm, rfl⟩ := Option.map_eq_some_iff.1 hitem
    exact ⟨m, List.mem_of_getElem? hm, rfl, rfl, rfl, rfl⟩
  case symbols => exact hnodup
  case nonempty =>
    intro u hu hempty
    obtain ⟨home, v, hv, rfl⟩ := hunit u hu
    have hmem := List.mem_of_getElem? hv
    obtain ⟨i, hi⟩ := List.exists_mem_of_ne_nil _ (hgrouped.nonempty v hmem)
    obtain ⟨m, hm⟩ := exists_member_of_mem hgrouped hmem hi
    have hitem : c.unitItem us home i ≠ none := by simp [unitItem, hm]
    obtain ⟨it, hit⟩ := Option.ne_none_iff_exists'.1 hitem
    have hit' : it ∈ (c.unitOf p config.readableNames us home v).items :=
      List.mem_mergeSort.2 (List.mem_filterMap.2 ⟨i, hi, hit⟩)
    rw [hempty] at hit'
    exact List.not_mem_nil hit'
  case whole =>
    intro i j m n hm hn hb u hu
    obtain ⟨home, v, hv, rfl⟩ := hunit u hu
    exact contains_unitOf_congr hgrouped hinsts hv hm hn hb
  case length =>
    rw [hperm.length_eq, List.length_mapIdx, ← hus, plans, Plan.length_mergeTo, length_place]
  case cost =>
    intro u hu
    obtain ⟨home, v, hv, rfl⟩ := hunit u hu
    have hmem := List.mem_of_getElem? hv
    have hplan : v ∈ c.plans p config := hus ▸ hmem
    have hcost := cost_plans v hplan
    show v.cost = _
    -- the order of the items does not matter to the sum, and each has the size of its node
    rw [hcost, satSum_perm (perm_items_unitOf (g := fun m => m.info.size) fun i it hit => by
      obtain ⟨m, hm, rfl⟩ := Option.map_eq_some_iff.1 hit
      rw [hm]
      rfl), ← List.filterMap_eq_map]
    congr 1
    refine List.filterMap_congr fun i hi => ?_
    obtain ⟨m, hm⟩ := exists_member_of_mem hgrouped hmem hi
    simp [sizeOf, hm]
  case sorted =>
    intro u hu
    -- the symbols of one unit are among those of all units
    have hown := (List.nodup_flatMap.1 (List.map_flatMap .. ▸ hnodup)).1 u hu
    obtain ⟨home, v, hv, rfl⟩ := hunit u hu
    exact pairwise_items_unitOf hown
  case ordered =>
    have hsorted : units.Pairwise fun u v => CodegenUnit.le u v = true := by
      rw [← hunits]
      apply List.pairwise_mergeSort
      · exact fun u v w h h' => largerFirst_trans h h'
      · exact fun u v => largerFirst_total (u.cost, u.name) (v.cost, v.name)
    refine hsorted.imp fun {u v} hle => ?_
    obtain hlt | ⟨heq, hname⟩ := largerFirst_iff.1 hle
    · exact .inl hlt
    · exact .inr ⟨heq, Text.le_iff.1 hname⟩

end Collection

namespace Program

variable {p : Program} {config : Config} {a : Analyzer} {fuel : Nat} {r : CollectResult}
  {c : Collection}

/-- What a collection ends with is cut into units under every configuration. -/
theorem partition_isCut (hr : p.collect config a fuel = some r) (hc : r.outcome = .ok c)
    (config' : Config) : ∃ units, c.partition p config' = .ok units ∧ c.IsCut p config' units :=
  Collection.exists_partition_isCut (nodup_members_of_collect hr hc)
    (Walk.nodup_symbols_finish (finish_of_collect hr hc))

/-- The sample program is collected, and cut when no units are wanted. -/
theorem partition_isCut_sample : ∃ r c, sample.collect {} { enabled := true } 20 = some r ∧
    r.outcome = .ok c ∧ c.contains ⟨.item 0, []⟩ = true ∧ ∃ units,
      c.partition sample { units := 0, readableNames := false } = .ok units ∧
        c.IsCut sample { units := 0, readableNames := false } units := by
  obtain ⟨r, c, hr, hc, -, huses⟩ := exists_collection_sample
  obtain ⟨i, m, -, -, hm, hinst, -⟩ := huses
  have hcontains : c.contains ⟨.item 0, []⟩ = true :=
    Collection.contains_iff.2 ⟨m, List.mem_of_getElem? hm, hinst⟩
  exact ⟨r, c, hr, hc, hcontains, partition_isCut hr hc _⟩

end Program

end Monomorph
