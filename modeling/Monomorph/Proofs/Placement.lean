import Mathlib.Data.List.Nodup
import Monomorph.Partition.Units
import Monomorph.Proofs.Checking

/-!
# Every generated node has one unit

Placing goes over the nodes and opens a unit for every name it meets. A bucket has one name, so it
lies in one unit, and joining moves whole units. What holds of the units is `Collection.Placed`
while nodes are placed and `Collection.Grouped` from then on. It follows that the units keep the
rules that are checked (`Grouped.checked`), so cutting never fails (`partition_eq_ok_iff`).
-/

namespace Monomorph

/-! ## Lists of disjoint parts -/

section Parts

variable {α β : Type} {f : α → List β} {as : List α}

/-- If nothing occurs twice in all parts together, it lies in one part only. -/
theorem place_unique_of_nodup_flatMap (h : (as.flatMap f).Nodup) {i j : Nat} {a b : α} {x : β}
    (hi : as[i]? = some a) (hj : as[j]? = some b) (ha : x ∈ f a) (hb : x ∈ f b) : i = j := by
  have hdisjoint := (List.nodup_flatMap.1 h).2
  rw [List.pairwise_iff_getElem] at hdisjoint
  obtain ⟨hilt, rfl⟩ := List.getElem?_eq_some_iff.1 hi
  obtain ⟨hjlt, rfl⟩ := List.getElem?_eq_some_iff.1 hj
  -- two places in the list would be two lists with one member
  obtain hlt | heq | hgt := Nat.lt_trichotomy i j
  · exact absurd hb (hdisjoint i j hilt hjlt hlt ha)
  · exact heq
  · exact absurd ha (hdisjoint j i hjlt hilt hgt hb)

end Parts

namespace Plan

variable {us : List Plan} {u : Plan}

/-! ## Adding a node -/

section Add

variable {name : String} {b : Bucket} {i : NodeId} {size : Nat}

/-- Adding a node adds its bucket, and no other. -/
theorem mem_buckets_add {b' : Bucket} :
    b' ∈ (u.add b i size).buckets ↔ b' ∈ u.buckets ∨ b' = b := by
  -- a bucket that is listed already is not listed again
  unfold add
  split
  · next h =>
    rw [List.contains_iff_mem] at h
    constructor
    · exact .inl
    · rintro (hb | rfl)
      · exact hb
      · exact h
  · simp

/-- Adding a node does not repeat a bucket. -/
theorem nodup_buckets_add (h : u.buckets.Nodup) : (u.add b i size).buckets.Nodup := by
  unfold add
  split
  · exact h
  · next hb =>
    rw [List.contains_iff_mem] at hb
    exact List.nodup_append.2 ⟨h, List.nodup_singleton b, by
      intro x hx y hy
      rw [List.mem_singleton.1 hy]
      intro he
      exact hb (he ▸ hx)⟩

/-- A unit after a node was added is one of those before, or one with the name and the node. -/
theorem mem_addTo (h : u ∈ addTo name b i size us) :
    u ∈ us ∨ ∃ v, v.name = name ∧ (v ∈ us ∨ v = { name }) ∧ u = v.add b i size := by
  induction us with
  | nil =>
    rw [addTo, List.mem_singleton] at h
    exact .inr ⟨_, rfl, .inr rfl, h⟩
  -- The unit of the name takes the node, and units before it are passed.
  | cons a us ih =>
    rw [addTo] at h
    split at h
    · next hname =>
      obtain rfl | h := List.mem_cons.1 h
      · exact .inr ⟨a, hname, .inl List.mem_cons_self, rfl⟩
      · exact .inl (List.mem_cons_of_mem _ h)
    · obtain rfl | h := List.mem_cons.1 h
      · exact .inl List.mem_cons_self
      · obtain h | ⟨v, hv, hmem, rfl⟩ := ih h
        · exact .inl (List.mem_cons_of_mem _ h)
        · exact .inr ⟨v, hv, hmem.imp_left (List.mem_cons_of_mem _), rfl⟩

/-- The units hold one node more. -/
theorem nodes_addTo : ((addTo name b i size us).flatMap nodes).Perm (i :: us.flatMap nodes) := by
  induction us with
  | nil => exact .refl _
  | cons a us ih =>
    -- the node comes behind those of its unit, or it goes further
    rw [addTo]
    split
    · rw [List.flatMap_cons, List.flatMap_cons]
      show ((a.nodes ++ [i]) ++ us.flatMap nodes).Perm _
      rw [List.append_assoc]
      exact List.perm_middle
    · rw [List.flatMap_cons, List.flatMap_cons]
      exact (ih.append_left _).trans List.perm_middle

/-- Adding a node does not repeat a unit's name. -/
theorem names_addTo (h : (us.map Plan.name).Nodup) :
    ((addTo name b i size us).map Plan.name).Nodup := by
  induction us with
  | nil => exact List.nodup_singleton _
  | cons a us ih =>
    rw [List.map_cons, List.nodup_cons] at h
    rw [addTo]
    split
    · exact List.nodup_cons.2 h
    · next hne =>
      refine List.nodup_cons.2 ⟨?_, ih h.2⟩
      -- The new unit differs in name from all before it, because none of them had the name.
      intro hmem
      obtain ⟨v, hv, hname⟩ := List.mem_map.1 hmem
      obtain hv | ⟨w, hw, -, rfl⟩ := mem_addTo hv
      · exact h.1 (List.mem_map.2 ⟨v, hv, hname⟩)
      · exact hne (hname.symm.trans hw)

end Add

/-! ## Joining -/

/-- What joining concatenates is what it was, all units together. -/
theorem flatMap_joinLast {β : Type} {f : Plan → List β}
    (hf : ∀ u v : Plan, f (u.absorb v) = f u ++ f v) : (joinLast us).flatMap f = us.flatMap f := by
  fun_induction joinLast us with
  | case1 => rfl
  | case2 => rfl
  | case3 u v => simp [hf]
  -- the units in front are left as they are
  | case4 u v w rest ih =>
    show f u ++ (joinLast (v :: w :: rest)).flatMap f = f u ++ (v :: w :: rest).flatMap f
    rw [ih]

/-- A unit is an old one, or made of two old ones. -/
theorem mem_joinLast (h : u ∈ joinLast us) : u ∈ us ∨ ∃ v ∈ us, ∃ w ∈ us, u = v.absorb w := by
  fun_induction joinLast us with
  | case1 => exact .inl h
  | case2 => exact .inl h
  | case3 v w => exact .inr ⟨v, by simp, w, by simp, List.mem_singleton.1 h⟩
  | case4 a v w rest ih =>
    -- joined units are two of those further on
    obtain rfl | h := List.mem_cons.1 h
    · exact .inl List.mem_cons_self
    · obtain h | ⟨v', hv, w', hw, rfl⟩ := ih h
      · exact .inl (List.mem_cons_of_mem _ h)
      · exact .inr ⟨v', List.mem_cons_of_mem _ hv, w', List.mem_cons_of_mem _ hw, rfl⟩

end Plan

namespace Collection

variable (p : Program) (c : Collection)

/-! ## What holds of the units -/

/-- Units that have each of some nodes once, if it has a bucket, together with the bucket, and no
    bucket twice. -/
structure Grouped (ids : List NodeId) (us : List Plan) : Prop where
  nodes : (us.flatMap Plan.nodes).Perm (ids.filter fun i => (c.bucket? i).isSome)
  buckets : (us.flatMap Plan.buckets).Nodup
  nonempty : ∀ u ∈ us, u.nodes ≠ []
  bucket : ∀ u ∈ us, ∀ i ∈ u.nodes, ∃ b ∈ u.buckets, c.bucket? i = some b

/-- What holds while nodes are placed: every unit has the name of its buckets. -/
structure Placed (ids : List NodeId) (us : List Plan) : Prop where
  nodes : (us.flatMap Plan.nodes).Perm (ids.filter fun i => (c.bucket? i).isSome)
  names : (us.map Plan.name).Nodup
  named : ∀ u ∈ us, ∀ b ∈ u.buckets, p.unitName b = u.name
  once : ∀ u ∈ us, u.buckets.Nodup
  nonempty : ∀ u ∈ us, u.nodes ≠ []
  bucket : ∀ u ∈ us, ∀ i ∈ u.nodes, ∃ b ∈ u.buckets, c.bucket? i = some b

variable {p c} {ids : List NodeId} {us us' : List Plan}

/-- Without nodes there are no units. -/
theorem placed_nil : c.Placed p [] [] where
  nodes := .refl _
  names := .nil
  named := fun _ h => nomatch h
  once := fun _ h => nomatch h
  nonempty := fun _ h => nomatch h
  bucket := fun _ h => nomatch h

/-- One more node is placed in the unit of its bucket. -/
theorem Placed.placeNode (h : c.Placed p ids us) (i : NodeId) :
    c.Placed p (ids ++ [i]) (c.placeNode p us i) := by
  unfold Collection.placeNode
  split
  · next b hb =>
    constructor
    case nodes =>
      rw [List.filter_append, List.filter_singleton, hb]
      exact Plan.nodes_addTo.trans ((h.nodes.cons i).trans (List.perm_append_singleton i _).symm)
    case names => exact Plan.names_addTo h.names
    case named =>
      intro u hu b' hb'
      -- one unit grew, by a bucket with its name, or it was opened for that name
      obtain hu | ⟨v, hv, hmem, rfl⟩ := Plan.mem_addTo hu
      · exact h.named u hu b' hb'
      · obtain hb' | rfl := Plan.mem_buckets_add.1 hb'
        · obtain hmem | rfl := hmem
          · exact h.named v hmem b' hb'
          · exact nomatch hb'
        · exact hv.symm
    case once =>
      intro u hu
      obtain hu | ⟨v, -, hmem, rfl⟩ := Plan.mem_addTo hu
      · exact h.once u hu
      · apply Plan.nodup_buckets_add
        obtain hmem | rfl := hmem
        · exact h.once v hmem
        · exact .nil
    case nonempty =>
      intro u hu
      obtain hu | ⟨v, -, -, rfl⟩ := Plan.mem_addTo hu
      · exact h.nonempty u hu
      · exact List.append_ne_nil_of_right_ne_nil _ (List.cons_ne_nil i [])
    case bucket =>
      intro u hu j hj
      obtain hu | ⟨v, -, hmem, rfl⟩ := Plan.mem_addTo hu
      · exact h.bucket u hu j hj
      · obtain hj | hj := List.mem_append.1 hj
        · obtain hmem | rfl := hmem
          · obtain ⟨b', hb', hj⟩ := h.bucket v hmem j hj
            exact ⟨b', Plan.mem_buckets_add.2 (.inl hb'), hj⟩
          · exact nomatch hj
        · rw [List.mem_singleton.1 hj]
          exact ⟨b, Plan.mem_buckets_add.2 (.inr rfl), hb⟩
  · next hb =>
    refine ⟨?_, h.names, h.named, h.once, h.nonempty, h.bucket⟩
    rw [List.filter_append, List.filter_singleton, hb]
    simpa using h.nodes

/-- Placing nodes one by one places them all. -/
theorem Placed.foldl (h : c.Placed p ids us) (js : List NodeId) :
    c.Placed p (ids ++ js) (js.foldl (c.placeNode p) us) := by
  induction js generalizing ids us with
  | nil => rwa [List.append_nil]
  | cons i js ih =>
    have h := ih (h.placeNode i)
    rwa [List.append_assoc] at h

/-- Units with different names have different buckets. -/
theorem Placed.grouped (h : c.Placed p ids us) : c.Grouped ids us where
  nodes := h.nodes
  nonempty := h.nonempty
  bucket := h.bucket
  buckets := by
    refine List.nodup_flatMap.2 ⟨h.once, ?_⟩
    -- a bucket in two units would give both its name
    apply (List.pairwise_map.1 h.names).imp_of_mem
    intro u v hu hv hne b hbu hbv
    exact hne ((h.named u hu b hbu).symm.trans (h.named v hv b hbv))

/-- Grouped units may stand in any order. -/
theorem Grouped.perm (h : c.Grouped ids us) (hperm : us'.Perm us) : c.Grouped ids us' where
  nodes := (hperm.flatMap_right _).trans h.nodes
  buckets := (hperm.flatMap_right _).symm.nodup h.buckets
  nonempty := fun u hu => h.nonempty u (hperm.mem_iff.1 hu)
  bucket := fun u hu => h.bucket u (hperm.mem_iff.1 hu)

/-- Joining the last two units keeps them grouped. -/
theorem Grouped.joinLast (h : c.Grouped ids us) : c.Grouped ids (Plan.joinLast us) := by
  constructor
  case nodes =>
    rw [Plan.flatMap_joinLast fun u v => rfl]
    exact h.nodes
  case buckets =>
    rw [Plan.flatMap_joinLast fun u v => rfl]
    exact h.buckets
  case nonempty =>
    intro u hu
    obtain hu | ⟨v, hv, w, -, rfl⟩ := Plan.mem_joinLast hu
    · exact h.nonempty u hu
    · exact List.append_ne_nil_of_left_ne_nil (h.nonempty v hv) _
  case bucket =>
    -- A node of the joined unit was in one of the two, and so was its bucket.
    intro u hu i hi
    obtain hu | ⟨v, hv, w, hw, rfl⟩ := Plan.mem_joinLast hu
    · exact h.bucket u hu i hi
    · obtain hi | hi := List.mem_append.1 hi
      · obtain ⟨b, hb, hi⟩ := h.bucket v hv i hi
        exact ⟨b, List.mem_append_left _ hb, hi⟩
      · obtain ⟨b, hb, hi⟩ := h.bucket w hw i hi
        exact ⟨b, List.mem_append_right _ hb, hi⟩

/-- Joins keep units grouped. -/
theorem Grouped.joinTimes (h : c.Grouped ids us) (n : Nat) :
    c.Grouped ids (Plan.joinTimes n us) := by
  induction n generalizing us with
  | zero => exact h
  | succ n ih => exact ih (h.perm (List.mergeSort_perm us Plan.le)).joinLast

variable (p c) in
/-- The units that are given a linkage. -/
def plans (config : Config) : List Plan := Plan.mergeTo config.units (c.place p)

/-- The planned units are grouped. -/
theorem grouped_plans (config : Config) : c.Grouped c.graph.ids (c.plans p config) := by
  have hplaced := (@placed_nil p c).foldl c.graph.ids
  exact (hplaced.grouped.perm (List.mergeSort_perm _ _)).joinTimes _

/-! ## The check -/

/-- No node is in the units twice. -/
theorem Grouped.nodup_nodes (h : c.Grouped c.graph.ids us) : (us.flatMap Plan.nodes).Nodup :=
  h.nodes.symm.nodup (List.nodup_range.filter _)

/-- A node is in a unit exactly if it has a bucket. -/
theorem Grouped.exists_mem_iff (h : c.Grouped c.graph.ids us) {i : NodeId}
    (hi : i ∈ c.graph.ids) : (∃ u ∈ us, i ∈ u.nodes) ↔ (c.bucket? i).isSome = true := by
  rw [← List.mem_flatMap, h.nodes.mem_iff, List.mem_filter]
  exact and_iff_right hi

/-- Units that placing and joining lead to keep the rules. -/
theorem Grouped.checked (h : c.Grouped c.graph.ids us) : c.Checked us where
  nonempty := h.nonempty
  buckets := fun hu hv hbu hbv => place_unique_of_nodup_flatMap h.buckets hu hv hbu hbv
  nodes := h.nodup_nodes
  bucket := h.bucket
  placed := fun _ hi hb => (h.exists_mem_iff hi).2 hb

/-- The check of the units finds nothing, whatever a collection holds. -/
theorem Grouped.check_eq_ok (h : c.Grouped c.graph.ids us) : c.check p us = .ok () := by
  refine (check_eq_ok_iff fun u hu i hi => ?_).2 h.checked
  have hmem := h.nodes.mem_iff.1 (List.mem_flatMap.2 ⟨u, hu, hi⟩)
  exact List.mem_range.1 (List.mem_filter.1 hmem).1

/-- Cutting a collection into units succeeds, whatever it holds. -/
theorem partition_eq_ok_iff {config : Config} {units : List CodegenUnit} :
    c.partition p config = .ok units ↔
      units = ((c.plans p config).mapIdx
        (c.unitOf p config.readableNames (c.plans p config))).mergeSort CodegenUnit.le := by
  -- The check of grouped units passes, so the cut is only the finishing of units.
  have hchecked : c.check p (c.plans p config) = .ok () := (grouped_plans config).check_eq_ok
  unfold plans at hchecked ⊢
  rw [partition, hchecked]
  constructor
  · intro h
    exact (Except.ok.inj h).symm
  · intro h
    rw [h]
    rfl

end Collection

end Monomorph
