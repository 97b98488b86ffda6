import Monomorph.Output
import Monomorph.Proofs.Exactness
import Monomorph.Proofs.Placement

/-!
# Linkage is sound

Where a collection is cut into units, a use never points to a symbol that the linker cannot see
from the unit of its user: the used instance is in the same unit, or in another one and not
internal, or it is linked from its own crate. The reverse uses, the roots and the units that decide
the linkage of an instance agree, since all three go by the numbers of the nodes, and the check of
the units makes sure that every generated node has one unit.
-/

namespace Monomorph

/-! ## What is collected -/

/-- Whether an instance is linked from its own crate: it is an item of another crate that is
    neither generic nor inlinable. -/
def Program.IsImported (p : Program) (inst : Instance) : Prop :=
  ∃ i, (inst.what = .item i ∨ inst.what = .static i) ∧ (p.item i).provenance.isLocal = false ∧
    (p.item i).generics.isEmpty = true ∧ (p.item i).provenance.inlinable = false

section Collected

variable {p : Program} {config : Config} {a : Analyzer} {fuel : Nat} {r : CollectResult}
  {c : Collection}

/-- What is known of a recorded instance is what was known before its body was looked at, but for
    its size. -/
theorem Walk.Kept.info {unused : UnusedSets} {M : DropMemo → Prop} {errors : List Error}
    {r : Record} (h : Kept p unused M errors r) :
    ∃ size, r.info = { p.info r.inst with size } := by
  cases h with
  | linked => exact ⟨_, rfl⟩
  | broken => exact ⟨_, rfl⟩
  -- A scan changes the size alone, and only where it finds something to measure.
  | @scanned inst ns =>
    show ∃ size, p.infoAfter inst ns = _
    unfold Program.infoAfter
    split
    · exact ⟨_, rfl⟩
    · exact ⟨(p.info inst).size, rfl⟩

/-- The walk of a collection keeps the invariant of walks. -/
theorem Program.inv_of_collect (h : p.collect config a fuel = some r) :
    Walk.Inv p config (a.unused p) (fun _ => True) (p.roots (a.unused p) config) r.walk := by
  obtain ⟨w, hrun, rfl⟩ := collect_eq_some_iff.1 h
  exact (inv_startWalk trivial _).reach (fun _ _ _ _ _ _ _ => trivial)
    (Walk.moves_of_run hrun).1

/-- What is collected is what the walk finishes with. -/
theorem Program.finish_of_collect (h : p.collect config a fuel = some r)
    (hc : r.outcome = .ok c) :
    r.walk.finish p (p.roots (a.unused p) config) (p.rootWarnings config.mode) = .ok c := by
  obtain ⟨w, hrun, rfl⟩ := collect_eq_some_iff.1 h
  exact hc

/-- No instance is collected twice. -/
theorem Program.nodup_members_of_collect (h : p.collect config a fuel = some r)
    (hc : r.outcome = .ok c) : (c.members.map Member.inst).Nodup :=
  Walk.nodup_members_finish (finish_of_collect h hc) (inv_of_collect h).nodup

/-- What is known of a member is what its program says, but for the size. -/
theorem Program.info_of_collect (h : p.collect config a fuel = some r) (hc : r.outcome = .ok c)
    {i : NodeId} {m : Member} (hm : c.member? i = some m) :
    ∃ size, m.info = { p.info m.inst with size } := by
  obtain ⟨s, hs, hinst, hinfo⟩ := Walk.exists_record_of_member (finish_of_collect h hc) hm
  rw [hinfo, hinst]
  exact ((inv_of_collect h).kept s hs).info

/-- What is not generated is an imported item that is neither generic nor inlined. -/
theorem Program.isImported_of_not_isGenerated {inst : Instance}
    (h : (p.info inst).isGenerated = false) : p.IsImported inst := by
  have item : ∀ i, ((p.item i).provenance.isLocal || !(p.item i).generics.isEmpty ||
      (p.item i).provenance.inlinable) = false → (p.item i).provenance.isLocal = false ∧
        (p.item i).generics.isEmpty = true ∧ (p.item i).provenance.inlinable = false := by
    intro i h
    simpa [and_assoc] using h
  unfold info at h
  -- Glue and shims are always generated, so the instance is of an item.
  cases hwhat : inst.what with
  | item i =>
    rw [hwhat] at h
    exact ⟨i, .inl hwhat, item i h⟩
  | static i =>
    rw [hwhat] at h
    exact ⟨i, .inr hwhat, item i h⟩
  | dropGlue =>
    rw [hwhat] at h
    cases h
  | vtableShim i =>
    rw [hwhat] at h
    cases h

end Collected

/-! ## The unit of a node -/

namespace Collection

variable {p : Program} {c : Collection} {config : Config} {us : List Plan}

/-- A node has a bucket exactly where code is generated for it. -/
theorem isSome_bucket?_iff {i : NodeId} {m : Member} (hm : c.member? i = some m) :
    (c.bucket? i).isSome = true ↔ m.info.isGenerated = true := by
  rw [bucket?, hm, Option.bind_some]
  unfold bucketOf?
  cases m.info.isGenerated with
  | false => simp
  | true =>
    simp only [Bool.not_true, Bool.false_eq_true, if_false, iff_true]
    repeat' split
    all_goals rfl

/-- The home of a node is the unit that has it. -/
theorem Grouped.homeOf?_eq_some_iff (h : c.Grouped c.graph.ids us) {i : NodeId} {home : Nat} :
    homeOf? us i = some home ↔ ∃ u, us[home]? = some u ∧ i ∈ u.nodes := by
  unfold homeOf?
  constructor
  · intro hhome
    obtain ⟨hlt, hcontains, -⟩ := List.findIdx?_eq_some_iff_getElem.1 hhome
    exact ⟨us[home], List.getElem?_eq_getElem hlt, List.contains_iff_mem.1 hcontains⟩
  · intro ⟨u, hhome, hu⟩
    -- the search finds some unit with the node, and there is only one
    cases hfind : us.findIdx? fun u => u.nodes.contains i with
    | none =>
      have hnot := List.findIdx?_eq_none_iff.1 hfind u (List.mem_of_getElem? hhome)
      rw [List.contains_iff_mem.2 hu] at hnot
      exact nomatch hnot
    | some j =>
      obtain ⟨hlt, hcontains, -⟩ := List.findIdx?_eq_some_iff_getElem.1 hfind
      rw [place_unique_of_nodup_flatMap h.nodup_nodes (List.getElem?_eq_getElem hlt) hhome
        (List.contains_iff_mem.1 hcontains) hu]

/-- A node has a home exactly if code is generated for it. -/
theorem Grouped.exists_homeOf?_iff (h : c.Grouped c.graph.ids us) {i : NodeId} {m : Member}
    (hm : c.member? i = some m) :
    (∃ home, homeOf? us i = some home) ↔ m.info.isGenerated = true := by
  have hi : i ∈ c.graph.ids := List.mem_range.2 (List.getElem?_eq_some_iff.1 hm).1
  -- To have a bucket is to be in a unit, and the unit is the home.
  rw [← isSome_bucket?_iff hm, ← h.exists_mem_iff hi]
  constructor
  · intro ⟨home, hhome⟩
    obtain ⟨u, hu, hmem⟩ := h.homeOf?_eq_some_iff.1 hhome
    exact ⟨u, List.mem_of_getElem? hu, hmem⟩
  · intro ⟨u, hu, hmem⟩
    obtain ⟨home, hhome⟩ := List.mem_iff_getElem?.1 hu
    exact ⟨home, h.homeOf?_eq_some_iff.2 ⟨u, hhome, hmem⟩⟩

/-! ## Linkage -/

section Linkage

variable {i : NodeId} {info : Info} {home : Nat}

/-- Local code is internal where it is private and used in one unit only, and external otherwise. -/
theorem linkageOf_of_isLocal (hlocal : info.isLocal = true) :
    (c.linkageOf us i info home = .internal ↔ (info.provenance.visibility ≠ .everyone ∧
      info.provenance.forced = false ∧ c.isRoot i = false) ∧
        ∀ u ∈ c.graph.users i, homeOf? us u = some home) ∧
      (c.linkageOf us i info home = .internal ∨ c.linkageOf us i info home = .external) := by
  unfold linkageOf
  simp only [hlocal, Bool.not_true, Bool.false_eq_true, if_false]
  split
  · next hprivate => simpa [and_assoc] using hprivate
  · next hprivate => simpa [and_assoc] using hprivate

/-- A copy is internal where it is used in one unit only, and linked once otherwise. -/
theorem linkageOf_of_not_isLocal (hlocal : info.isLocal = false) :
    (c.linkageOf us i info home = .internal ↔
      ∀ u ∈ c.graph.users i, homeOf? us u = some home) ∧
        (c.linkageOf us i info home = .internal ∨ c.linkageOf us i info home = .linkOnce) := by
  unfold linkageOf
  simp only [hlocal, Bool.not_false, if_true]
  split
  · next hinside => simpa using hinside
  · next hinside => simpa using hinside

/-- Internal code is used in its own unit only. -/
theorem users_of_linkageOf_internal (h : c.linkageOf us i info home = .internal) {u : NodeId}
    (hu : u ∈ c.graph.users i) : homeOf? us u = some home := by
  cases hlocal : info.isLocal with
  | true => exact ((linkageOf_of_isLocal hlocal).1.1 h).2 u hu
  | false => exact (linkageOf_of_not_isLocal hlocal).1.1 h u hu

end Linkage

section Unit

variable (h : c.Grouped c.graph.ids us) (hnodup : (c.members.map Member.inst).Nodup)
  {readable : Bool} {home : Nat} {u : Plan} (hu : us[home]? = some u) {it : UnitItem}

include h hnodup hu

/-- A unit holds the instances of the nodes that it is the home of. -/
theorem mem_items_unitOf {i : NodeId} {m : Member} (hm : c.member? i = some m) :
    it ∈ (c.unitOf p readable us home u).items ∧ it.inst = m.inst ↔
      homeOf? us i = some home ∧ c.unitItem us home i = some it := by
  unfold unitOf
  rw [List.mem_mergeSort, List.mem_filterMap]
  constructor
  · intro ⟨⟨j, hj, hitem⟩, hinst⟩
    -- the instance has one node, so the item was made of this one
    obtain ⟨n, hn, rfl⟩ := Option.map_eq_some_iff.1 hitem
    obtain rfl := member?_inj hnodup hn hm hinst
    exact ⟨h.homeOf?_eq_some_iff.2 ⟨u, hu, hj⟩, hitem⟩
  · intro ⟨hhome, hitem⟩
    obtain ⟨v, hv, hmem⟩ := h.homeOf?_eq_some_iff.1 hhome
    obtain rfl := Option.some.inj (hu.symm.trans hv)
    obtain ⟨n, hn, rfl⟩ := Option.map_eq_some_iff.1 hitem
    obtain rfl := Option.some.inj (hm.symm.trans hn)
    exact ⟨⟨i, hmem, hitem⟩, rfl⟩

/-- What a unit finds for an instance is the item of its node, in its home. -/
theorem find?_unitOf_eq_some_iff {i : NodeId} {m : Member} (hm : c.member? i = some m) :
    (c.unitOf p readable us home u).find? m.inst = some it ↔
      homeOf? us i = some home ∧ c.unitItem us home i = some it := by
  rw [← mem_items_unitOf h hnodup hu hm]
  constructor
  · intro hfind
    have hinst := List.find?_some hfind
    exact ⟨List.mem_of_find?_eq_some hfind, eq_of_beq hinst⟩
  · intro hit
    cases hfind : (c.unitOf p readable us home u).find? m.inst with
    | none => exact absurd (beq_iff_eq.2 hit.2) (List.find?_eq_none.1 hfind it hit.1)
    | some it' =>
      -- both are the item of the one node
      have hinst := List.find?_some hfind
      have hit' := (mem_items_unitOf h hnodup hu hm).1
        ⟨List.mem_of_find?_eq_some hfind, eq_of_beq hinst⟩
      have hit := (mem_items_unitOf h hnodup hu hm).1 hit
      exact hit'.2.symm.trans hit.2

end Unit

end Collection

/-! ## The units of a run -/

/-- A run gives a result where the walk, the analyzer, the collection and the cut all do. -/
theorem Program.monomorphize_eq_ok_iff {p : Program} {config : Config} {fuel : Nat} {o : Output} :
    p.monomorphize config fuel = some (.ok o) ↔
      ∃ r, p.collect config { enabled := config.polymorphize } fuel = some r ∧
        r.analyzer.freeze = .ok o.unused ∧ r.outcome = .ok o.items ∧
          o.items.partition p config = .ok o.units := by
  unfold monomorphize
  rw [Option.bind_eq_bind, Option.bind_eq_some_iff]
  -- the answers of the analyzer are checked before the collection is looked at
  refine exists_congr fun r => and_congr_right fun _ => ?_
  cases r.analyzer.freeze with
  | error e => simp
  | ok unused =>
    cases r.outcome with
    | error e => simp [bind, Except.bind]
    | ok items =>
      simp only [bind, Except.bind, pure, Option.some.injEq, Except.ok.injEq]
      constructor
      · intro ho
        split at ho
        · exact nomatch ho
        · next units hunits =>
          obtain rfl := Except.ok.inj ho
          exact ⟨rfl, rfl, hunits⟩
      · rintro ⟨rfl, rfl, hunits⟩
        rw [hunits]

namespace Output

/-- What a unit, given by its number, holds for an instance. -/
def item? (o : Output) (k : Nat) (inst : Instance) : Option UnitItem :=
  o.units[k]?.bind fun u => u.find? inst

/-- Whether all users of an instance are in a unit. -/
def UsedInside (o : Output) (k : Nat) (inst : Instance) : Prop :=
  ∀ a kind, o.items.Uses a inst kind → (o.item? k a).isSome = true

section Run

variable {p : Program} {config : Config} {fuel : Nat} {o : Output}
  (h : p.monomorphize config fuel = some (.ok o))

include h

/-- No instance is in the result twice. -/
theorem nodup_members : (o.items.members.map Member.inst).Nodup := by
  obtain ⟨r, hr, -, hc, -⟩ := Program.monomorphize_eq_ok_iff.1 h
  exact Program.nodup_members_of_collect hr hc

/-- Every unit of a run is one of the plans. -/
theorem exists_plan {k : Nat} {u : CodegenUnit} (hu : o.units[k]? = some u) :
    ∃ (home : Nat) (v : Plan), (o.items.plans p config)[home]? = some v ∧
      u = o.items.unitOf p config.readableNames (o.items.plans p config) home v := by
  obtain ⟨r, -, -, -, hunits⟩ := Program.monomorphize_eq_ok_iff.1 h
  have hmem := List.mem_of_getElem? hu
  rw [Collection.partition_eq_ok_iff.1 hunits, List.mem_mergeSort, List.mem_mapIdx] at hmem
  obtain ⟨home, hlt, rfl⟩ := hmem
  exact ⟨home, _, List.getElem?_eq_getElem hlt, rfl⟩

/-- Every plan becomes one of the units. -/
theorem exists_unit {home : Nat} {v : Plan} (hv : (o.items.plans p config)[home]? = some v) :
    ∃ k : Nat, o.units[k]? =
      some (o.items.unitOf p config.readableNames (o.items.plans p config) home v) := by
  obtain ⟨r, -, -, -, hunits⟩ := Program.monomorphize_eq_ok_iff.1 h
  obtain ⟨hlt, rfl⟩ := List.getElem?_eq_some_iff.1 hv
  apply List.mem_iff_getElem?.1
  rw [Collection.partition_eq_ok_iff.1 hunits, List.mem_mergeSort, List.mem_mapIdx]
  exact ⟨home, hlt, rfl⟩

/-- What is placed is a node, and its unit holds what has the same home. -/
theorem exists_home {k : Nat} {inst : Instance} {it : UnitItem}
    (hit : o.item? k inst = some it) : ∃ (i : NodeId) (m : Member) (home : Nat),
      o.items.member? i = some m ∧ m.inst = inst ∧
      Collection.homeOf? (o.items.plans p config) i = some home ∧
      it.linkage = o.items.linkageOf (o.items.plans p config) i m.info home ∧
      ∀ (j : NodeId) (n : Member), o.items.member? j = some n →
        ((o.item? k n.inst).isSome = true ↔
          Collection.homeOf? (o.items.plans p config) j = some home) := by
  -- The unit is one of the planned ones, and the item was made of a node in it.
  obtain ⟨u, hu, hfind⟩ := Option.bind_eq_some_iff.1 hit
  obtain ⟨home, v, hv, rfl⟩ := exists_plan h hu
  have hgrouped := Collection.grouped_plans (p := p) (c := o.items) config
  have hmem := List.mem_mergeSort.1 (List.mem_of_find?_eq_some hfind)
  obtain ⟨i, -, hitem⟩ := List.mem_filterMap.1 hmem
  obtain ⟨m, hm, rfl⟩ := Option.map_eq_some_iff.1 hitem
  have hinst : m.inst = inst := eq_of_beq (List.find?_some hfind :)
  subst hinst
  obtain ⟨hhome, -⟩ :=
    (Collection.find?_unitOf_eq_some_iff hgrouped (nodup_members h) hv hm).1 hfind
  refine ⟨i, m, home, hm, rfl, hhome, rfl, ?_⟩
  intro j n hn
  rw [item?, hu, Option.bind_some, Option.isSome_iff_exists]
  simp only [Collection.find?_unitOf_eq_some_iff hgrouped (nodup_members h) hv hn]
  simp [Collection.unitItem, hn]

/-- An instance is placed exactly if code is generated for it. -/
theorem exists_item?_iff {i : NodeId} {m : Member} (hm : o.items.member? i = some m) :
    (∃ k it, o.item? k m.inst = some it) ↔ m.info.isGenerated = true := by
  have hgrouped := Collection.grouped_plans (p := p) (c := o.items) config
  rw [← hgrouped.exists_homeOf?_iff hm]
  -- The home of a node is one of the units, which finds the node's instance.
  constructor
  · intro hplaced
    obtain ⟨k, it, hit⟩ := hplaced
    obtain ⟨j, n, home, hn, hinst, hhome, -⟩ := exists_home h hit
    obtain rfl := Collection.member?_inj (nodup_members h) hn hm hinst
    exact ⟨home, hhome⟩
  · intro hplaced
    obtain ⟨home, hhome⟩ := hplaced
    obtain ⟨v, hv, -⟩ := hgrouped.homeOf?_eq_some_iff.1 hhome
    obtain ⟨k, hk⟩ := exists_unit h hv
    refine ⟨k, ?_⟩
    rw [item?, hk, Option.bind_some]
    simp only [Collection.find?_unitOf_eq_some_iff hgrouped (nodup_members h) hv hm]
    simp [Collection.unitItem, hm, hhome]

/-- Units that have one instance in common have all in common. -/
theorem isSome_item?_congr {j k : Nat} {inst : Instance} {it it' : UnitItem}
    (hit : o.item? j inst = some it) (hit' : o.item? k inst = some it') {i : NodeId} {m : Member}
    (hm : o.items.member? i = some m) :
    (o.item? j m.inst).isSome = true ↔ (o.item? k m.inst).isSome = true := by
  obtain ⟨s, n, home, hn, rfl, hhome, -, hunit⟩ := exists_home h hit
  obtain ⟨s', n', home', hn', hinst, hhome', -, hunit'⟩ := exists_home h hit'
  obtain rfl := Collection.member?_inj (nodup_members h) hn' hn hinst
  obtain rfl := Option.some.inj (hhome.symm.trans hhome')
  rw [hunit i m hm, hunit' i m hm]

/-- The users of a node are in a unit exactly if it is the home of all nodes that use it. -/
theorem usedInside_iff {k home : Nat}
    (hhome : ∀ (j : NodeId) (n : Member), o.items.member? j = some n →
      ((o.item? k n.inst).isSome = true ↔
        Collection.homeOf? (o.items.plans p config) j = some home))
    {i : NodeId} {m : Member} (hm : o.items.member? i = some m) :
    o.UsedInside k m.inst ↔
      ∀ u ∈ o.items.graph.users i, Collection.homeOf? (o.items.plans p config) u = some home := by
  obtain ⟨r, hr, -, hc, -⟩ := Program.monomorphize_eq_ok_iff.1 h
  have hfinish := Program.finish_of_collect hr hc
  have hinv := Program.inv_of_collect hr
  -- A use is an edge, so the users of the instance are the nodes that have edges to it.
  constructor
  · intro hinside u hu
    obtain ⟨e, he, rfl⟩ := List.mem_map.1 ((UseGraph.mem_users _).1 hu).2
    obtain ⟨n, hn, -⟩ := (Walk.mem_usesOf_finish hfinish hinv.nodup).1 he
    exact (hhome u n hn).1 (hinside _ _ ⟨u, n, e, m, hn, rfl, he, hm, rfl, rfl⟩)
  · rintro husers a kind ⟨u, n, e, t, hn, rfl, he, ht, hinst, rfl⟩
    obtain rfl := Collection.member?_inj (nodup_members h) ht hm hinst
    have huser : u ∈ o.items.graph.users e.target :=
      (UseGraph.mem_users _).2 ⟨Walk.target_lt_finish hfinish hinv.nodup he,
        List.mem_map_of_mem he⟩
    exact (hhome u n hn).2 (husers u huser)

/-- The roots among the nodes are the nodes of the root instances. -/
theorem isRoot_eq_false_iff {i : NodeId} {m : Member} (hm : o.items.member? i = some m) :
    o.items.isRoot i = false ↔
      m.inst ∉ p.roots (Analyzer.unused { enabled := config.polymorphize } p) config := by
  obtain ⟨r, hr, -, hc, -⟩ := Program.monomorphize_eq_ok_iff.1 h
  rw [Collection.isRoot, ← Bool.not_eq_true, List.contains_iff_mem,
    Walk.mem_roots_finish (Program.finish_of_collect hr hc)]
  -- A node is a root where its member's instance is one, and it has one member.
  apply not_congr
  constructor
  · intro hroot
    obtain ⟨m', hm', hmem⟩ := hroot
    obtain rfl := Option.some.inj (hm.symm.trans hm')
    exact hmem
  · intro hmem
    exact ⟨m, hm, hmem⟩

/-- An internal instance has all its users in its unit. -/
theorem usedInside_of_internal {k : Nat} {inst : Instance} {it : UnitItem}
    (hit : o.item? k inst = some it) (hinternal : it.linkage = .internal) :
    o.UsedInside k inst := by
  obtain ⟨i, m, home, hm, rfl, -, hlinkage, hunit⟩ := exists_home h hit
  rw [hlinkage] at hinternal
  rw [usedInside_iff h hunit hm]
  exact fun u hu => Collection.users_of_linkageOf_internal hinternal hu

end Run

/-! ## The main result -/

/-- The linker finds every symbol that a unit uses, and no symbol is visible without need. -/
structure IsLinked (p : Program) (config : Config) (o : Output) : Prop where
  /-- What a placed instance uses is in its unit, in another one and visible from outside, or
      linked from its own crate. -/
  used : ∀ {k a it b kind}, o.item? k a = some it → o.items.Uses a b kind →
    (o.item? k b).isSome = true ∨
      (∃ j it', j ≠ k ∧ o.item? j b = some it' ∧ it'.linkage ≠ .internal) ∨
        (∀ j, o.item? j b = none) ∧ p.IsImported b
  /-- A local instance is internal if nothing outside its unit may refer to it. -/
  native : ∀ {k inst it}, o.item? k inst = some it → (p.info inst).isLocal = true →
    (it.linkage = .internal ↔ ((p.info inst).provenance.visibility ≠ .everyone ∧
      (p.info inst).provenance.forced = false ∧
        inst ∉ p.roots (Analyzer.unused { enabled := config.polymorphize } p) config) ∧
          o.UsedInside k inst) ∧
      (it.linkage = .internal ∨ it.linkage = .external)
  /-- A copy from another crate is internal if its unit alone uses it. -/
  copied : ∀ {k inst it}, o.item? k inst = some it → (p.info inst).isLocal = false →
    (it.linkage = .internal ↔ o.UsedInside k inst) ∧
      (it.linkage = .internal ∨ it.linkage = .linkOnce)

end Output

namespace Program

variable {p : Program} {config : Config} {fuel : Nat} {o : Output}

/-- Whenever a program is cut into units, they can be linked. -/
theorem monomorphize_isLinked (h : p.monomorphize config fuel = some (.ok o)) :
    o.IsLinked p config := by
  obtain ⟨r, hr, -, hc, -⟩ := monomorphize_eq_ok_iff.1 h
  constructor
  case used =>
    intro k a it b kind hit huses
    obtain ⟨i, m, e, t, -, -, -, ht, rfl, -⟩ := id huses
    by_cases hinside : (o.item? k t.inst).isSome = true
    · exact .inl hinside
    right
    by_cases hgen : t.info.isGenerated = true
    · left
      obtain ⟨j, it', hit'⟩ := (Output.exists_item?_iff h ht).2 hgen
      have hsome : (o.item? j t.inst).isSome = true := Option.isSome_iff_exists.2 ⟨it', hit'⟩
      refine ⟨j, it', ?_, hit', ?_⟩
      · intro hjk
        exact hinside (hjk ▸ hsome)
      · intro hinternal
        -- if it were internal the user would be in its unit, and that unit would be this one
        have huser := Output.usedInside_of_internal h hit' hinternal a kind huses
        obtain ⟨it₂, hit₂⟩ := Option.isSome_iff_exists.1 huser
        exact hinside ((Output.isSome_item?_congr h hit hit₂ ht).2 hsome)
    · right
      constructor
      · intro j
        rw [Option.eq_none_iff_forall_ne_some]
        intro it' hit'
        exact hgen ((Output.exists_item?_iff h ht).1 ⟨j, it', hit'⟩)
      · obtain ⟨size, hinfo⟩ := info_of_collect hr hc ht
        rw [hinfo, Bool.not_eq_true] at hgen
        exact isImported_of_not_isGenerated hgen
  case native =>
    intro k inst it hit hlocal
    obtain ⟨i, m, home, hm, rfl, hhome, hlinkage, hunit⟩ := Output.exists_home h hit
    obtain ⟨size, hinfo⟩ := info_of_collect hr hc hm
    have hlocal' : m.info.isLocal = true := by rw [hinfo]; exact hlocal
    have hlink := @Collection.linkageOf_of_isLocal o.items (o.items.plans p config) i m.info home
      hlocal'
    rw [hlinkage, Output.usedInside_iff h hunit hm, ← Output.isRoot_eq_false_iff h hm]
    rw [hinfo] at hlink ⊢
    exact hlink
  case copied =>
    intro k inst it hit hlocal
    obtain ⟨i, m, home, hm, rfl, hhome, hlinkage, hunit⟩ := Output.exists_home h hit
    obtain ⟨size, hinfo⟩ := info_of_collect hr hc hm
    have hlocal' : m.info.isLocal = false := by rw [hinfo]; exact hlocal
    rw [hlinkage, Output.usedInside_iff h hunit hm]
    exact Collection.linkageOf_of_not_isLocal hlocal'

/-- A collection is cut into units unless the analyzer contradicts itself. -/
theorem exists_monomorphize_eq_ok {r : CollectResult} {c : Collection}
    (hr : p.collect config { enabled := config.polymorphize } fuel = some r)
    (hfreeze : r.analyzer.freeze.isOk = true) (hc : r.outcome = .ok c) :
    ∃ o, p.monomorphize config fuel = some (.ok o) ∧ o.items = c := by
  have hunits := Collection.partition_eq_ok_iff.2 (rfl : _ = ((c.plans p config).mapIdx
    (c.unitOf p config.readableNames (c.plans p config))).mergeSort CodegenUnit.le)
  -- The cut cannot fail, so all that is left is the check of the analyzer.
  cases hfrozen : r.analyzer.freeze with
  | error e =>
    rw [hfrozen] at hfreeze
    exact nomatch hfreeze
  | ok unused =>
    exact ⟨⟨c, _, unused⟩, monomorphize_eq_ok_iff.2 ⟨r, hr, hfrozen, hc, hunits⟩, rfl⟩

/-- What is collected and generated is placed. -/
theorem exists_item?_of_member (h : p.monomorphize config fuel = some (.ok o)) {i : NodeId}
    {m : Member} (hm : o.items.member? i = some m) (hgen : (p.info m.inst).isGenerated = true) :
    ∃ k it, o.item? k m.inst = some it := by
  obtain ⟨r, hr, -, hc, -⟩ := monomorphize_eq_ok_iff.1 h
  obtain ⟨size, hinfo⟩ := info_of_collect hr hc hm
  exact (Output.exists_item?_iff h hm).2 (by rw [hinfo]; exact hgen)

/-- The sample program is cut into units that can be linked. Its entry point is placed and seen from
    outside; it uses an instance that is placed as well. -/
theorem monomorphize_isLinked_sample : ∃ o, sample.monomorphize {} 20 = some (.ok o) ∧
    o.IsLinked sample {} ∧ o.items.Uses ⟨.item 0, []⟩ ⟨.item 1, [.ty (.prim .u8)]⟩ .call ∧
      (∃ k it, o.item? k ⟨.item 0, []⟩ = some it ∧ it.linkage = .external) ∧
        ∃ k it, o.item? k ⟨.item 1, [.ty (.prim .u8)]⟩ = some it := by
  obtain ⟨r, c, hr, hc, hfreeze, huses⟩ := exists_collection_sample
  obtain ⟨o, ho, rfl⟩ := exists_monomorphize_eq_ok hr hfreeze hc
  have hlinked : o.IsLinked sample {} := monomorphize_isLinked ho
  refine ⟨o, ho, hlinked, huses, ?_⟩
  obtain ⟨i, m, e, t, hm, hmain, -, ht, hkeep, -⟩ := huses
  constructor
  · obtain ⟨k, it, hit⟩ := exists_item?_of_member ho hm (by rw [hmain]; rfl)
    rw [hmain] at hit
    -- the walk starts from the entry point, so it is not internal
    have hroot : (⟨.item 0, []⟩ : Instance) ∈
        sample.roots (Analyzer.unused { enabled := true } sample) {} := by decide +kernel
    obtain ⟨hinternal, hlinkage⟩ := hlinked.native hit rfl
    exact ⟨k, it, hit, hlinkage.resolve_left fun h => (hinternal.1 h).1.2.2 hroot⟩
  · rw [← hkeep]
    exact exists_item?_of_member ho ht (by rw [hkeep]; rfl)

end Program

end Monomorph
