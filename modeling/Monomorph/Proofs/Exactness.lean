import Monomorph.Proofs.Bounded
import Monomorph.Proofs.Collection

/-!
# Collection is exact

`Program.Needed` is the least set of instances that has the roots and is closed under the neighbors
of its generated members. In a program where no type lies inside itself by value, a walk that ended
without errors has recorded exactly this set, with the neighbors of each member as its uses, in
whatever order it went (`Walk.Complete`). So the collection is exact, and if the set is within the
limits there is one.
-/

namespace Monomorph

/-- The least set of instances that contains the roots and, with every member for which code is
    generated, every neighbor that its scan returns. -/
inductive Program.Needed (p : Program) (unused : UnusedSets) (roots : List Instance) :
    Instance → Prop
  | root {inst : Instance} : inst ∈ roots → Needed p unused roots inst
  | neighbor {inst : Instance} {ns : List Neighbor} {n : Neighbor} : Needed p unused roots inst →
    (p.info inst).isGenerated = true → p.Scans unused inst ns → n ∈ ns →
    Needed p unused roots n.inst

/-- Whether a needed instance uses another one in some way: the scan of the one returns the
    other. -/
def Program.NeededUse (p : Program) (unused : UnusedSets) (roots : List Instance)
    (a b : Instance) (kind : UseKind) : Prop :=
  p.Needed unused roots a ∧ (p.info a).isGenerated = true ∧
    ∃ ns, p.Scans unused a ns ∧ ∃ n ∈ ns, n.inst = b ∧ n.kind = kind

/-- The instances that the walk starts from. -/
def Program.roots (p : Program) (unused : UnusedSets) (config : Config) : List Instance :=
  (p.rootItems config.mode).map fun i => p.instanceWith (unused i) i []

section

variable {p : Program} {config : Config} {unused : UnusedSets} {roots : List Instance}

/-- What a walk with true answers reaches is needed. -/
theorem Program.needed_of_reachedFrom (hacyclic : p.ByValueAcyclic) {inst : Instance}
    (h : p.ReachedFrom unused (DropMemo.Sound p) config roots inst) :
    p.Needed unused roots inst := by
  obtain ⟨root, hroot, hpath⟩ := h
  induction hpath with
  | refl => exact .root hroot
  | tail _ hstep ih =>
    -- that the instance before it is within the limits is not asked of needed instances
    obtain ⟨-, hgen, ns, hscan, n, hn, rfl⟩ := hstep
    exact .neighbor ih hgen ((Program.scansFrom_sound hacyclic).1 hscan) hn

/-- True answers are kept by everything the walk asks. -/
theorem Program.preserves_sound (hacyclic : p.ByValueAcyclic) :
    p.Preserves (DropMemo.Sound p) :=
  fun _ _ _ _ _ hm h => (Program.settle_sound hacyclic hm h).2

namespace Walk

/-! ## Walks that ended without errors -/

/-- What a walk that ended without errors says, whatever the order it went in. -/
structure Complete (p : Program) (config : Config) (unused : UnusedSets) (roots : List Instance)
    (w : Walk) : Prop where
  inv : Inv p config unused (DropMemo.Sound p) roots w
  fatal : w.fatal = none
  errors : w.errors = []
  ahead : ∀ inst, ¬ w.Ahead inst

/-- Nothing lies ahead of a walk that is done. -/
theorem not_ahead_of_isDone {w : Walk} (hdone : w.isDone = true) (hfatal : w.fatal = none)
    (inst : Instance) : ¬ w.Ahead inst := by
  simp only [isDone, hfatal, Option.isSome_none, Bool.false_or, Bool.and_eq_true,
    List.isEmpty_iff] at hdone
  -- neither a root is waiting nor a neighbor pending
  intro h
  obtain h | ⟨f, hf, -⟩ := h
  · rw [hdone.2] at h
    cases h
  · rw [hdone.1] at hf
    cases hf

namespace Complete

variable {w : Walk} (h : Complete p config unused roots w)

include h

/-- Every use of a record points to a record. -/
theorem exists_record_of_use {r : Record} (hr : r ∈ w.records) {u : Instance × UseKind}
    (hu : u ∈ r.uses) : ∃ s ∈ w.records, s.inst = u.1 := by
  obtain hclaimed | hahead := h.inv.closed r hr u hu
  · exact h.inv.claimed h.fatal _ hclaimed
  · exact absurd hahead (h.ahead _)

/-- What is linked only is recorded without uses. -/
theorem record_linked {r : Record} (hr : r ∈ w.records)
    (hgen : (p.info r.inst).isGenerated = false) : r = ⟨r.inst, p.info r.inst, []⟩ := by
  have hkept := h.inv.kept r hr
  cases hkept with
  | linked => rfl
  | broken hgen' => exact nomatch hgen.symm.trans hgen'
  | scanned hgen' => exact nomatch hgen.symm.trans hgen'

/-- The scan of what is generated succeeded. -/
theorem exists_scans {r : Record} (hr : r ∈ w.records) (hacyclic : p.ByValueAcyclic)
    (hgen : (p.info r.inst).isGenerated = true) : ∃ ns, p.Scans unused r.inst ns := by
  have hkept := h.inv.kept r hr
  -- the walk ended without errors, so the scan of a member did not fail
  cases hkept with
  | linked hgen' => exact nomatch hgen'.symm.trans hgen
  | broken _ _ he =>
    rw [h.errors] at he
    exact nomatch he
  | scanned _ hscan => exact ⟨_, (Program.scansFrom_sound hacyclic).1 hscan⟩

/-- What is generated is recorded with the neighbors of its scan. -/
theorem record_scanned (hacyclic : p.ByValueAcyclic) {r : Record} (hr : r ∈ w.records)
    (hgen : (p.info r.inst).isGenerated = true) {ns : List Neighbor}
    (hscan : p.Scans unused r.inst ns) :
    r = ⟨r.inst, p.infoAfter r.inst ns, ns.map fun n => (n.inst, n.kind)⟩ := by
  have hkept := h.inv.kept r hr
  cases hkept with
  | linked hgen' => exact nomatch hgen'.symm.trans hgen
  | broken _ _ he =>
    rw [h.errors] at he
    exact nomatch he
  | scanned _ hscan' =>
    -- the neighbors do not depend on what the walk remembered when it scanned the instance
    obtain rfl := hscan.inj hacyclic ((Program.scansFrom_sound hacyclic).1 hscan')
    rfl

/-- Exactly the needed instances are recorded. -/
theorem exists_record_iff (hacyclic : p.ByValueAcyclic) {inst : Instance} :
    (∃ r ∈ w.records, r.inst = inst) ↔ p.Needed unused roots inst := by
  constructor
  · intro hr
    obtain ⟨r, hr, rfl⟩ := hr
    have hreach := h.inv.reached r.inst (.inl (h.inv.recorded r hr))
    exact Program.needed_of_reachedFrom hacyclic hreach
  · intro hneeded
    -- nothing lies ahead any more, so what the invariant leaves open is claimed, and so recorded
    induction hneeded with
    | root hroot =>
      obtain hclaimed | hahead := h.inv.started _ hroot
      · exact h.inv.claimed h.fatal _ hclaimed
      · exact absurd hahead (h.ahead _)
    | @neighbor _ _ n _ hgen hscan hn ih =>
      obtain ⟨r, hr, rfl⟩ := ih
      have huses := congrArg Record.uses (h.record_scanned hacyclic hr hgen hscan)
      apply h.exists_record_of_use (u := (n.inst, n.kind)) hr
      rw [huses]
      exact List.mem_map_of_mem hn

/-- What is needed is within the limits, and its scan succeeded if it is generated. -/
theorem within_of_needed (hacyclic : p.ByValueAcyclic) {inst : Instance}
    (hneeded : p.Needed unused roots inst) : config.Within inst ∧
      ((p.info inst).isGenerated = true → ∃ ns, p.Scans unused inst ns) := by
  obtain ⟨r, hr, rfl⟩ := (h.exists_record_iff hacyclic).2 hneeded
  exact ⟨h.inv.within r hr, h.exists_scans hr hacyclic⟩

/-- Two walks that ended without errors have the same records, but for their order. -/
theorem records_perm (hacyclic : p.ByValueAcyclic) {w' : Walk}
    (h' : Complete p config unused roots w') : w.records.Perm w'.records := by
  -- both walks recorded the needed instances, and what is recorded of each one is determined
  have sub : ∀ {w w' : Walk}, Complete p config unused roots w →
      Complete p config unused roots w' → ∀ r ∈ w.records, r ∈ w'.records := by
    intro w w' h h' r hr
    have hneeded := (h.exists_record_iff hacyclic).1 ⟨r, hr, rfl⟩
    obtain ⟨s, hs, he⟩ := (h'.exists_record_iff hacyclic).2 hneeded
    cases hgen : (p.info r.inst).isGenerated with
    | false =>
      rw [h.record_linked hr hgen, ← he, ← h'.record_linked hs (he ▸ hgen)]
      exact hs
    | true =>
      obtain ⟨ns, hscan⟩ := h.exists_scans hr hacyclic hgen
      rw [h.record_scanned hacyclic hr hgen hscan, ← he,
        ← h'.record_scanned hacyclic hs (he ▸ hgen) (he ▸ hscan)]
      exact hs
  have hnodup : ∀ {w : Walk}, Complete p config unused roots w → w.records.Nodup :=
    fun h => h.inv.nodup.of_map _
  rw [List.perm_ext_iff_of_nodup (hnodup h) (hnodup h')]
  exact fun r => ⟨sub h h' r, sub h' h r⟩

end Complete

/-- Walks with the same records come to the same collection. -/
theorem finish_congr {w w' : Walk} (hnodup : (w.records.map Record.inst).Nodup)
    (hrecords : w.records.Perm w'.records) (hfatal : w'.fatal = none) (herrors : w'.errors = [])
    {warnings : List Diagnostic} {c : Collection} (h : w.finish p roots warnings = .ok c) :
    w'.finish p roots warnings = .ok c := by
  have hmembers : w'.members p = w.members p := by
    have hperm : (w.members p).Perm (w'.members p) :=
      members_perm.trans ((hrecords.map _).trans members_perm.symm)
    -- sorted lists with the same members are equal, since no two members have one symbol
    refine (hperm.eq_of_pairwise ?_ pairwise_members pairwise_members).symm
    intro a b ha hb hab hba
    rw [← members_finish h] at ha
    rw [← hperm.mem_iff, ← members_finish h] at hb
    exact symbol_inj_finish h ha hb (Text.le_antisymm hab hba)
  have hnodup' : (w'.records.map Record.inst).Nodup := (hrecords.map _).nodup hnodup
  have hedges : ∀ ms inst, w'.edges ms inst = w.edges ms inst := by
    intro ms inst
    -- an instance has one record at most, so the order of the records does not matter
    have hfind : (w'.records.find? fun r => r.inst == inst) =
        w.records.find? fun r => r.inst == inst := by
      apply Option.ext
      intro r
      rw [find?_inst_eq_some_iff hnodup, find?_inst_eq_some_iff hnodup', hrecords.mem_iff]
    unfold edges
    rw [hfind]
  have hgraph : w'.graph p = w.graph p := by
    unfold graph
    simp only [hmembers, hedges]
  obtain ⟨-, -, hclash, hc⟩ := finish_eq_ok_iff.1 h
  refine finish_eq_ok_iff.2 ⟨hfatal, herrors, ?_, ?_⟩
  · rw [hmembers]
    exact hclash
  · rw [hgraph]
    exact hc

/-- The edges of a collection are the uses that the walk recorded. -/
theorem uses_finish_iff {M : DropMemo → Prop} {w : Walk} (hinv : Inv p config unused M roots w)
    (hdone : w.isDone = true) {warnings : List Diagnostic} {c : Collection}
    (h : w.finish p roots warnings = .ok c) {x y : Instance} {kind : UseKind} :
    c.Uses x y kind ↔ ∃ r ∈ w.records, r.inst = x ∧ (y, kind) ∈ r.uses := by
  constructor
  · intro ⟨i, m, e, t, hm, hx, he, ht, hy, hkind⟩
    subst hx hy hkind
    obtain ⟨m', hm', r, hr, hinst, t', ht', hu⟩ := (mem_usesOf_finish h hinv.nodup).1 he
    obtain rfl := Option.some.inj (hm.symm.trans hm')
    obtain rfl := Option.some.inj (ht.symm.trans ht')
    exact ⟨r, hr, hinst, hu⟩
  · intro ⟨r, hr, hx, hu⟩
    subst hx
    obtain ⟨hfatal, -, -, -⟩ := finish_eq_ok_iff.1 h
    have node : ∀ s ∈ w.records, ∃ i m, c.member? i = some m ∧ m.inst = s.inst := by
      intro s hs
      obtain ⟨i, hi⟩ := List.mem_iff_getElem?.1 ((mem_members_finish h).2 ⟨s, hs, rfl⟩)
      exact ⟨i, _, hi, rfl⟩
    -- nothing lies ahead any more, so what is used is recorded
    obtain ⟨s, hs, hinst⟩ : ∃ s ∈ w.records, s.inst = y := by
      obtain hclaimed | hahead := hinv.closed r hr _ hu
      · exact hinv.claimed hfatal y hclaimed
      · exact absurd hahead (not_ahead_of_isDone hdone hfatal y)
    obtain ⟨i, m, hm, hmr⟩ := node r hr
    obtain ⟨j, t, ht, hts⟩ := node s hs
    have hy : t.inst = y := hts.trans hinst
    have hedge : (⟨j, kind⟩ : Edge) ∈ c.graph.usesOf i :=
      (mem_usesOf_finish h hinv.nodup).2 ⟨m, hm, r, hr, hmr.symm, t, ht, by rw [hy]; exact hu⟩
    exact ⟨i, m, _, t, hm, hmr, hedge, ht, hy, rfl⟩

end Walk

end

/-! ## Exact collections -/

/-- What it means that a collection has the needed instances and their uses and nothing else. -/
structure Collection.IsExact (p : Program) (unused : UnusedSets) (roots : List Instance)
    (c : Collection) : Prop where
  contains_iff : ∀ inst, c.contains inst = true ↔ p.Needed unused roots inst
  nodup : (c.members.map Member.inst).Nodup
  sorted : c.members.Pairwise fun a b => a.symbol < b.symbol
  linked : ∀ i m, c.member? i = some m → (p.info m.inst).isGenerated = false →
    m.info = p.info m.inst ∧ c.graph.usesOf i = []
  /-- No use of a generated instance is lost, and none is made up. -/
  scanned : ∀ i m, c.member? i = some m → (p.info m.inst).isGenerated = true →
    ∃ ns, p.Scans unused m.inst ns ∧ m.info = p.infoAfter m.inst ns ∧
      (∀ n ∈ ns, c.contains n.inst = true) ∧
      ∀ e, e ∈ c.graph.usesOf i ↔ ∃ n ∈ ns, c.nodeOf? n.inst = some e.target ∧ n.kind = e.kind
  increasing : ∀ i, (c.graph.usesOf i).Pairwise Edge.Before
  roots_iff : ∀ i, i ∈ c.roots ↔ ∃ m, c.member? i = some m ∧ m.inst ∈ roots
  reachable : c.graph.reachable c.roots = c.graph.ids

section

variable {p : Program} {config : Config} {unused : UnusedSets} {roots : List Instance}
  {w : Walk} {warnings : List Diagnostic} {c : Collection}

namespace Walk.Complete

variable (hw : Complete p config unused roots w) (h : w.finish p roots warnings = .ok c)

include hw h

/-- A collection contains what is needed and nothing else. -/
theorem contains_iff_needed (hacyclic : p.ByValueAcyclic) {inst : Instance} :
    c.contains inst = true ↔ p.Needed unused roots inst := by
  -- What is needed is what has a record, and the records are the members.
  rw [Collection.contains_iff, ← hw.exists_record_iff hacyclic]
  constructor
  · intro hm
    obtain ⟨m, hm, he⟩ := hm
    obtain ⟨r, hr, rfl⟩ := (mem_members_finish h).1 hm
    exact ⟨r, hr, he⟩
  · intro hr
    obtain ⟨r, hr, he⟩ := hr
    exact ⟨_, (mem_members_finish h).2 ⟨r, hr, rfl⟩, he⟩

/-- A node uses the nodes of the neighbors that its scan returns, each in its way. -/
theorem mem_usesOf_iff (hacyclic : p.ByValueAcyclic) {i : NodeId} {m : Member}
    (hm : c.member? i = some m) (hgen : (p.info m.inst).isGenerated = true)
    {ns : List Neighbor} (hscan : p.Scans unused m.inst ns) (e : Edge) :
    e ∈ c.graph.usesOf i ↔ ∃ n ∈ ns, c.nodeOf? n.inst = some e.target ∧ n.kind = e.kind := by
  have hnodup := nodup_members_finish h hw.inv.nodup
  simp only [mem_usesOf_finish h hw.inv.nodup, Collection.nodeOf?_eq_some_iff hnodup]
  -- The record of a generated instance has the edges of its scan, and each leads to a member.
  constructor
  · intro ⟨m', hm', r, hr, hinst, t, ht, hu⟩
    obtain rfl := Option.some.inj (hm.symm.trans hm')
    rw [hw.record_scanned hacyclic hr (hinst ▸ hgen) (hinst ▸ hscan)] at hu
    obtain ⟨n, hn, he⟩ := List.mem_map.1 hu
    obtain ⟨hinst, hkind⟩ := Prod.mk.inj he
    exact ⟨n, hn, ⟨t, ht, hinst.symm⟩, hkind⟩
  · intro ⟨n, hn, ⟨t, ht, hinst⟩, hkind⟩
    obtain ⟨r, hr, he, -⟩ := exists_record_of_member h hm
    refine ⟨m, hm, r, hr, he.symm, t, ht, ?_⟩
    rw [hw.record_scanned hacyclic hr (he ▸ hgen) (he ▸ hscan)]
    exact List.mem_map.2 ⟨n, hn, by rw [hinst, hkind]⟩

/-- What is linked from elsewhere has no edges. -/
theorem usesOf_eq_nil {i : NodeId} {m : Member} (hm : c.member? i = some m)
    (hgen : (p.info m.inst).isGenerated = false) : c.graph.usesOf i = [] := by
  rw [List.eq_nil_iff_forall_not_mem]
  intro e he
  -- the record of such an instance lists no uses
  obtain ⟨m', hm', r, hr, hinst, t, -, hu⟩ := (mem_usesOf_finish h hw.inv.nodup).1 he
  obtain rfl := Option.some.inj (hm.symm.trans hm')
  rw [hw.record_linked hr (hinst ▸ hgen)] at hu
  exact nomatch hu

/-- Every node can be reached from the roots. -/
theorem reachable_eq_ids (hacyclic : p.ByValueAcyclic) :
    c.graph.reachable c.roots = c.graph.ids := by
  have hnodup := nodup_members_finish h hw.inv.nodup
  have hnode : ∀ i m, c.member? i = some m → i < c.graph.size := fun i m hm =>
    (List.getElem?_eq_some_iff.1 hm).1
  have htargets : ∀ u, ∀ v ∈ c.graph.targets u, v < c.graph.size := by
    intro u v hv
    obtain ⟨e, he, rfl⟩ := List.mem_map.1 hv
    exact target_lt_finish h hw.inv.nodup he
  -- along the way in which an instance is needed there is a path to its node
  have path : ∀ inst, p.Needed unused roots inst → ∃ i m, c.member? i = some m ∧ m.inst = inst ∧
      ∃ t ∈ c.roots, t < c.graph.size ∧
        Relation.ReflTransGen (fun a b => b ∈ c.graph.targets a) t i := by
    intro inst hneeded
    have hcontains := (hw.contains_iff_needed h hacyclic).2 hneeded
    obtain ⟨i, hi⟩ := Option.isSome_iff_exists.1 hcontains
    obtain ⟨m, hm, hinst⟩ := (Collection.nodeOf?_eq_some_iff hnodup).1 hi
    refine ⟨i, m, hm, hinst, ?_⟩
    induction hneeded generalizing i m with
    | root hroot =>
      exact ⟨i, (mem_roots_finish h).2 ⟨m, hm, hinst ▸ hroot⟩, hnode i m hm, .refl⟩
    | @neighbor a ns n ha hgen hscan hn ih =>
      have hacontains := (hw.contains_iff_needed h hacyclic).2 ha
      obtain ⟨j, hj⟩ := Option.isSome_iff_exists.1 hacontains
      obtain ⟨k, hk, hkinst⟩ := (Collection.nodeOf?_eq_some_iff hnodup).1 hj
      obtain ⟨t, ht, hid, hpath⟩ := ih hacontains j hj k hk hkinst
      have huse : (⟨i, n.kind⟩ : Edge) ∈ c.graph.usesOf j :=
        (hw.mem_usesOf_iff h hacyclic hk (hkinst ▸ hgen) (hkinst ▸ hscan) _).2 ⟨n, hn, hi, rfl⟩
      exact ⟨t, ht, hid, hpath.tail (List.mem_map.2 ⟨_, huse, rfl⟩)⟩
  -- both lists increase, and a node that is reached is a node
  refine (UseGraph.increasing_reachable _ _).eq_of_mem_iff List.pairwise_lt_range fun i => ?_
  rw [UseGraph.mem_reachable htargets, UseGraph.ids, List.mem_range]
  constructor
  · rintro ⟨t, -, ht, hpath⟩
    induction hpath with
    | refl => exact ht
    | tail _ hv => exact htargets _ _ hv
  intro hlt
  have hm : c.member? i = some c.graph.nodes[i] := List.getElem?_eq_getElem hlt
  have hneeded : p.Needed unused roots c.graph.nodes[i].inst :=
    (hw.contains_iff_needed h hacyclic).1
      (Collection.contains_iff.2 ⟨_, List.getElem_mem hlt, rfl⟩)
  obtain ⟨j, m, hj, hinst, hreach⟩ := path _ hneeded
  obtain rfl := Collection.member?_inj hnodup hj hm hinst
  exact hreach

/-- What a walk that ended without errors comes to is exact. -/
theorem isExact (hacyclic : p.ByValueAcyclic) : c.IsExact p unused roots := by
  have hnodup := nodup_members_finish h hw.inv.nodup
  -- each fact about the result is one about the records that the walk ended with
  constructor
  case contains_iff => exact fun inst => hw.contains_iff_needed h hacyclic
  case nodup => exact hnodup
  case sorted => exact pairwise_members_finish h
  case linked =>
    intro i m hm hgen
    obtain ⟨r, hr, hinst, hinfo⟩ := exists_record_of_member h hm
    refine ⟨?_, hw.usesOf_eq_nil h hm hgen⟩
    rw [hinfo, hw.record_linked hr (hinst ▸ hgen), hinst]
  case scanned =>
    intro i m hm hgen
    obtain ⟨r, hr, hinst, hinfo⟩ := exists_record_of_member h hm
    obtain ⟨ns, hscan⟩ := hw.exists_scans hr hacyclic (hinst ▸ hgen)
    have hrecord := hw.record_scanned hacyclic hr (hinst ▸ hgen) hscan
    refine ⟨ns, hinst ▸ hscan, ?_, ?_, ?_⟩
    · rw [hinfo, hrecord, hinst]
    · intro n hn
      have hneeded := (hw.exists_record_iff hacyclic).1 ⟨r, hr, rfl⟩
      exact (hw.contains_iff_needed h hacyclic).2
        (.neighbor hneeded (hinst ▸ hgen) hscan hn)
    · exact hw.mem_usesOf_iff h hacyclic hm hgen (hinst ▸ hscan)
  case increasing => exact pairwise_usesOf_finish h
  case roots_iff => exact fun i => mem_roots_finish h
  case reachable => exact hw.reachable_eq_ids h hacyclic

end Walk.Complete

/-- The uses in an exact collection are those that are needed. -/
theorem Collection.IsExact.uses_iff (hc : c.IsExact p unused roots) (hacyclic : p.ByValueAcyclic)
    {a b : Instance} {kind : UseKind} : c.Uses a b kind ↔ p.NeededUse unused roots a b kind := by
  constructor
  · intro ⟨i, m, e, t, hm, ha, he, ht, hb, hkind⟩
    subst ha hb hkind
    have hcontains : c.contains m.inst = true :=
      Collection.contains_iff.2 ⟨m, List.mem_of_getElem? hm, rfl⟩
    refine ⟨(hc.contains_iff _).1 hcontains, ?_⟩
    cases hgen : (p.info m.inst).isGenerated with
    | false =>
      -- what is linked only has no uses
      rw [(hc.linked i m hm hgen).2] at he
      exact nomatch he
    | true =>
      obtain ⟨ns, hscan, -, -, huses⟩ := hc.scanned i m hm hgen
      obtain ⟨n, hn, htarget, hkind⟩ := (huses e).1 he
      obtain ⟨t', ht', hinst⟩ := (Collection.nodeOf?_eq_some_iff hc.nodup).1 htarget
      obtain rfl := Option.some.inj (ht.symm.trans ht')
      exact ⟨rfl, ns, hscan, n, hn, hinst.symm, hkind⟩
  · intro ⟨ha, hgen, ns, hscan, n, hn, hb, hkind⟩
    subst hb hkind
    obtain ⟨i, hi⟩ := Option.isSome_iff_exists.1 ((hc.contains_iff a).2 ha)
    obtain ⟨m, hm, rfl⟩ := (Collection.nodeOf?_eq_some_iff hc.nodup).1 hi
    obtain ⟨ns', hscan', -, hcontains, huses⟩ := hc.scanned i m hm hgen
    obtain rfl := hscan.inj hacyclic hscan'
    obtain ⟨j, hj⟩ := Option.isSome_iff_exists.1 (hcontains n hn)
    obtain ⟨t, ht, hinst⟩ := (Collection.nodeOf?_eq_some_iff hc.nodup).1 hj
    exact ⟨i, m, ⟨j, n.kind⟩, t, hm, rfl, (huses _).2 ⟨n, hn, hj, rfl⟩, ht, hinst, rfl⟩

/-! ## Every order of steps -/

/-- Whatever order a walk takes, it ends without errors if the needed instances are within the
    limits and their scans succeed. -/
theorem Walk.complete_of_moves (hacyclic : p.ByValueAcyclic)
    (hwithin : ∀ inst, p.Needed unused roots inst → config.Within inst)
    (hscans : ∀ inst, p.Needed unused roots inst → (p.info inst).isGenerated = true →
      ∃ ns, p.Scans unused inst ns)
    {w w' : Walk} (hw : Inv p config unused (DropMemo.Sound p) roots w)
    (hmoves : Relation.ReflTransGen (Moves p config unused) w w') (hdone : w'.isDone = true) :
    Complete p config unused roots w' := by
  have hinv := hw.reach (Program.preserves_sound hacyclic) hmoves
  have hneeded : ∀ inst, w'.claimed.contains inst = true → p.Needed unused roots inst :=
    fun inst hc => Program.needed_of_reachedFrom hacyclic (hinv.reached inst (.inl hc))
  have hfatal : w'.fatal = none := by
    rw [← Option.not_isSome_iff_eq_none]
    -- only an instance beyond the limits stops a walk, and everything claimed is needed
    intro h
    obtain ⟨inst, hclaimed, hlimit⟩ := hinv.fatal h
    exact hlimit (hwithin inst (hneeded inst hclaimed))
  have herrors : w'.errors = [] := by
    rw [List.eq_nil_iff_forall_not_mem]
    -- an error comes from the scan of a record, and that scan succeeds
    intro e he
    obtain ⟨r, hr, hgen, hfail⟩ := hinv.errors e he
    obtain ⟨ns, hscan⟩ := hscans r.inst (hneeded r.inst (hinv.recorded r hr)) hgen
    exact nomatch hfail.symm.trans hscan.1
  exact ⟨hinv, hfatal, herrors, not_ahead_of_isDone hdone hfatal⟩

end

namespace Program

variable {p : Program} {config : Config}

/-- The walk of a collection, and what it comes to. -/
theorem collect_eq_some_iff {a : Analyzer} {fuel : Nat} {r : CollectResult} :
    p.collect config a fuel = some r ↔ ∃ w,
      (Walk.start p (a.unused p) (p.rootItems config.mode)).run p config (a.unused p) fuel =
          some w ∧
        r = ⟨w, a.consult p w.asked,
          w.finish p (p.roots (a.unused p) config) (p.rootWarnings config.mode)⟩ := by
  simp only [collect, a.answer_sets, Option.bind_eq_bind, Option.bind_eq_some_iff, pure,
    Option.some.injEq, eq_comm (a := r)]
  rfl

/-- The walk over a program starts with its invariant. -/
theorem inv_startWalk {M : DropMemo → Prop} (hM : M {}) (unused : UnusedSets) :
    Walk.Inv p config unused M (p.roots unused config)
      (Walk.start p unused (p.rootItems config.mode)) :=
  Walk.inv_start hM rfl

/-- The walk of a collection that there is ended without errors. -/
theorem complete_of_collect (hacyclic : p.ByValueAcyclic) {a : Analyzer} {fuel : Nat}
    {r : CollectResult} {c : Collection} (h : p.collect config a fuel = some r)
    (hc : r.outcome = .ok c) :
    Walk.Complete p config (a.unused p) (p.roots (a.unused p) config) r.walk ∧
      r.walk.finish p (p.roots (a.unused p) config) (p.rootWarnings config.mode) = .ok c := by
  -- a collection is what a walk without errors has ended in
  obtain ⟨w, hrun, rfl⟩ := collect_eq_some_iff.1 h
  obtain ⟨hmoves, hdone⟩ := Walk.moves_of_run hrun
  obtain ⟨hfatal, herrors, -, -⟩ := Walk.finish_eq_ok_iff.1 hc
  have hinv := (inv_startWalk DropMemo.sound_empty (a.unused p)).reach
    (preserves_sound hacyclic) hmoves
  exact ⟨⟨hinv, hfatal, herrors, Walk.not_ahead_of_isDone hdone hfatal⟩, hc⟩

/-- Whether a walk has ended without errors, with symbols that are all different. -/
def endsWell (p : Program) (r : CollectResult) : Bool :=
  r.walk.fatal.isNone && r.walk.errors.isEmpty &&
    decide (r.walk.records.map fun s => s.inst.symbol p).Nodup

/-- A walk that is seen to end well comes to a collection. What else is seen of it is handed on. -/
theorem exists_outcome {a : Analyzer} {fuel : Nat} {seen : CollectResult → Bool}
    (h : ((p.collect config a fuel).any fun r => p.endsWell r && seen r) = true) :
    ∃ r c, p.collect config a fuel = some r ∧ r.outcome = .ok c ∧ seen r = true := by
  -- What the check looks at is what finishing looks at, so the outcome is a collection.
  rw [Option.any_eq_true] at h
  obtain ⟨r, hr, hwalk⟩ := h
  simp only [endsWell, Bool.and_eq_true, Option.isNone_iff_eq_none, List.isEmpty_iff,
    decide_eq_true_eq] at hwalk
  obtain ⟨⟨⟨hfatal, herrors⟩, hsymbols⟩, hseen⟩ := hwalk
  obtain ⟨w, -, rfl⟩ := collect_eq_some_iff.1 hr
  obtain ⟨c, hc⟩ := Walk.exists_finish_eq_ok (p.roots (a.unused p) config)
    (p.rootWarnings config.mode) hfatal herrors hsymbols
  exact ⟨_, c, hr, hc, hseen⟩

/-- The collection has exactly the instances that the walk recorded. -/
theorem contains_iff_exists_record {a : Analyzer} {fuel : Nat} {r : CollectResult} {c : Collection}
    (h : p.collect config a fuel = some r) (hc : r.outcome = .ok c) {inst : Instance} :
    c.contains inst = true ↔ ∃ s ∈ r.walk.records, s.inst = inst := by
  obtain ⟨w, -, rfl⟩ := collect_eq_some_iff.1 h
  rw [Collection.contains_iff]
  constructor
  · rintro ⟨m, hm, rfl⟩
    obtain ⟨s, hs, rfl⟩ := (Walk.mem_members_finish hc).1 hm
    exact ⟨s, hs, rfl⟩
  · rintro ⟨s, hs, rfl⟩
    exact ⟨_, (Walk.mem_members_finish hc).2 ⟨s, hs, rfl⟩, rfl⟩

/-- A walk that is seen to end well comes to a collection with the instances it has recorded. -/
theorem exists_collection {a : Analyzer} {fuel : Nat} {insts : List Instance}
    (h : ((p.collect config a fuel).any fun r => p.endsWell r &&
      decide (∀ inst ∈ insts, inst ∈ r.walk.records.map Record.inst)) = true) :
    ∃ r c, p.collect config a fuel = some r ∧ r.outcome = .ok c ∧
      ∀ inst ∈ insts, c.contains inst = true := by
  obtain ⟨r, c, hr, hc, hinsts⟩ := exists_outcome h
  exact ⟨r, c, hr, hc, fun inst hinst => (contains_iff_exists_record hr hc).2
    (List.mem_map.1 (of_decide_eq_true hinsts inst hinst))⟩

/-- Where it does not matter which types need drop, nothing has to be known of the memory. -/
theorem preserves_true : p.Preserves fun _ => True := fun _ _ _ _ _ _ _ => trivial

/-- What a record of the walk uses, the collection has as a use. -/
theorem uses_of_record {a : Analyzer} {fuel : Nat} {r : CollectResult} {c : Collection}
    (h : p.collect config a fuel = some r) (hc : r.outcome = .ok c) {s : Record}
    (hs : s ∈ r.walk.records) {u : Instance × UseKind} (hu : u ∈ s.uses) :
    c.Uses s.inst u.1 u.2 := by
  obtain ⟨w, hrun, rfl⟩ := collect_eq_some_iff.1 h
  obtain ⟨hmoves, hdone⟩ := Walk.moves_of_run hrun
  have hinv := (inv_startWalk trivial (a.unused p)).reach preserves_true hmoves
  exact (Walk.uses_finish_iff hinv hdone hc).2 ⟨s, hs, rfl, hu⟩

/-- Roots are written in the letters of the program. -/
theorem writtenIn_roots (unused : UnusedSets) : ∀ root ∈ p.roots unused config,
    root.WrittenIn p.letters := by
  intro root hroot
  obtain ⟨i, hi, rfl⟩ := List.mem_map.1 hroot
  obtain ⟨hlt, -, hempty⟩ := p.mem_rootItems.1 hi
  exact writtenIn_root hlt hempty

/-! ## A check of the conditions -/

/-- Whether a list has the roots, is within the limits, and has every neighbor that the scans of
    its generated members return when types are classified with so much fuel. -/
def isClosedWithin (p : Program) (unused : UnusedSets) (config : Config) (fuel : Nat)
    (L : List Instance) : Bool :=
  (p.roots unused config).all L.contains && L.all fun inst =>
    decide (inst.args.nodeCount ≤ config.lengthLimit ∧ inst.args.nesting ≤ config.depthLimit) &&
      (!(p.info inst).isGenerated || (p.needs unused inst).failure.isNone &&
        (p.settle fuel (p.needs unused inst).found {}).any fun r => r.1.all fun n =>
          L.contains n.inst)

/-- A list that passes the check has all needed instances, which then are within the limits and
    have scans that succeed. -/
theorem needed_of_isClosedWithin (hacyclic : p.ByValueAcyclic) {unused : UnusedSets} {fuel : Nat}
    {L : List Instance} (h : p.isClosedWithin unused config fuel L = true) {inst : Instance}
    (hinst : p.Needed unused (p.roots unused config) inst) :
    inst ∈ L ∧ config.Within inst ∧
      ((p.info inst).isGenerated = true → ∃ ns, p.Scans unused inst ns) := by
  rw [isClosedWithin, Bool.and_eq_true, List.all_eq_true, List.all_eq_true] at h
  obtain ⟨hroots, hL⟩ := h
  -- what the check says of one instance of the list
  have check : ∀ inst ∈ L, config.Within inst ∧ ((p.info inst).isGenerated = true →
      ∃ ns, p.Scans unused inst ns ∧ ∀ n ∈ ns, n.inst ∈ L) := by
    intro inst hmem
    have h := hL inst hmem
    rw [Bool.and_eq_true, decide_eq_true_eq] at h
    refine ⟨h.1, fun hgen => ?_⟩
    have h := h.2
    rw [hgen, Bool.not_true, Bool.false_or, Bool.and_eq_true, Option.isNone_iff_eq_none,
      Option.any_eq_true] at h
    obtain ⟨hfail, ⟨ns, m⟩, hsettle, hns⟩ := h
    refine ⟨ns, ⟨hfail, fuel, m, hsettle⟩, ?_⟩
    intro n hn
    exact List.contains_iff_mem.1 (List.all_eq_true.1 hns n hn)
  -- the list is closed, so the least closed set lies in it
  have hmem : inst ∈ L := by
    induction hinst with
    | root hroot => exact List.contains_iff_mem.1 (hroots _ hroot)
    | neighbor _ hgen hscan hn ih =>
      obtain ⟨ns, hscan', hns⟩ := (check _ ih).2 hgen
      obtain rfl := hscan.inj hacyclic hscan'
      exact hns _ hn
  obtain ⟨hwithin, hscans⟩ := check inst hmem
  refine ⟨hmem, hwithin, fun hgen => ?_⟩
  obtain ⟨ns, hscan, -⟩ := hscans hgen
  exact ⟨ns, hscan⟩

/-- A program with a generic function that drops its argument and calls itself, one that does not
    use its parameter, and a type with a drop method. -/
def sample : Program where
  crates := ["app"]
  crateRegions := [0]
  regions := ["app"]
  items := #[
    { name := "main", path := "main", kind := .fn
      body := some { ops := [
        { action := .call .direct 1 [.ty (.adt 3 [])] },
        { action := .call .direct 1 [.ty (.prim .u8)] },
        { action := .call .direct 2 [.ty (.adt 3 [])] },
        { action := .call .pointer 2 [.ty (.prim .u8)] }] } },
    { name := "keep", path := "keep", kind := .fn, generics := { params := [⟨"T", .type⟩] }
      body := some { ops := [
        { action := .drop (.param 0) },
        { action := .call .direct 1 [.ty (.param 0)] }] } },
    { name := "tag", path := "tag", kind := .fn, generics := { params := [⟨"T", .type⟩] }
      body := some {} },
    { name := "Guard", path := "Guard", kind := .adt [] },
    { name := "drop", path := "Guard::drop", kind := .fn, body := some {} }]
  entries := [0]
  dropMethods := [(3, 4)]

/-- The sample is collected. Its entry point calls the function that drops its argument, and the
    analyzer has nothing to object to. -/
theorem exists_collection_sample : ∃ r c,
    sample.collect {} { enabled := true } 20 = some r ∧ r.outcome = .ok c ∧
      r.analyzer.freeze.isOk = true ∧
        c.Uses ⟨.item 0, []⟩ ⟨.item 1, [.ty (.prim .u8)]⟩ .call := by
  obtain ⟨r, c, hr, hc, hseen⟩ :=
    @exists_outcome sample {} { enabled := true } 20 (fun r => r.analyzer.freeze.isOk &&
      r.walk.records.any fun s => s.inst == ⟨.item 0, []⟩ &&
        s.uses.contains (⟨.item 1, [.ty (.prim .u8)]⟩, .call)) (by decide +kernel)
  -- The check finds the record of the caller with the use, which is an edge of the result.
  obtain ⟨hfreeze, hseen⟩ := Bool.and_eq_true_iff.1 hseen
  obtain ⟨s, hs, hseen⟩ := List.any_eq_true.1 hseen
  obtain ⟨hinst, hu⟩ := Bool.and_eq_true_iff.1 hseen
  have huses := uses_of_record hr hc hs (List.contains_iff_mem.1 hu)
  rw [eq_of_beq hinst] at huses
  exact ⟨r, c, hr, hc, hfreeze, huses⟩

/-- No type in the sample has fields. -/
theorem flatFields_sample : sample.FlatFields := by
  -- the program has functions, and one type without fields
  have hitems : ∀ i, (sample.item i).kind = .fn ∨ (sample.item i).kind = .adt [] := by
    intro i
    match i with
    | 0 | 1 | 2 | 4 => exact .inl rfl
    | 3 => exact .inr rfl
    | i + 5 => exact .inl rfl
  intro i fields hkind f hf
  obtain h | h := hitems i
  · rw [h] at hkind
    exact nomatch hkind
  · obtain rfl := ItemKind.adt.inj (h.symm.trans hkind)
    exact nomatch hf

/-- No type in the sample lies inside itself. -/
theorem acyclic_sample : sample.ByValueAcyclic :=
  acyclic_of_wellFounded flatFields_sample.wellFounded

/-- Every type can be classified in the sample. -/
theorem finiteToClassify_sample : sample.FiniteToClassify :=
  finiteToClassify_of_wellFounded flatFields_sample.wellFounded

/-! ## The main result -/

variable (config) in
/-- Collecting comes to an end if the types that the scans within the limits ask about can be
    classified. -/
theorem exists_collect {M : DropMemo → Prop} (hM : p.Preserves M) (hempty : M {}) (a : Analyzer)
    (hsettle : ∀ inst, p.ReachedFrom (a.unused p) M config (p.roots (a.unused p) config) inst →
      config.Within inst → (p.info inst).isGenerated = true → ∀ m, M m →
        ∃ fuel r, p.settle fuel (p.needs (a.unused p) inst).found m = some r) :
    ∃ r enough, ∀ fuel, enough ≤ fuel → p.collect config a fuel = some r := by
  -- without the bound on the nesting there could be infinitely many of them
  have hL : {inst | p.ReachedFrom (a.unused p) M config (p.roots (a.unused p) config) inst ∧
      inst.args.nesting ≤ config.depthLimit}.Finite :=
    finite_reachedFrom (writtenIn_roots (a.unused p)) config.depthLimit
  obtain ⟨enough, w, hrun⟩ := Walk.exists_run (L := hL.toFinset.toList) hM hsettle
    (inv_startWalk hempty (a.unused p)) (fun inst hreach hlimit _ => by
      rw [Finset.mem_toList, Set.Finite.mem_toFinset]
      exact ⟨hreach, hlimit.2⟩)
  have hcollect := collect_eq_some_iff.2 ⟨w, hrun, rfl⟩
  exact ⟨_, enough, fun fuel hle => collect_mono hle hcollect⟩

/-- If everything needed is within the limits and has a scan, the walk ends without errors. -/
theorem exists_complete (hacyclic : p.ByValueAcyclic) (a : Analyzer)
    (hwithin : ∀ inst, p.Needed (a.unused p) (p.roots (a.unused p) config) inst →
      config.Within inst)
    (hscans : ∀ inst, p.Needed (a.unused p) (p.roots (a.unused p) config) inst →
      (p.info inst).isGenerated = true → ∃ ns, p.Scans (a.unused p) inst ns) :
    ∃ w enough, Walk.Complete p config (a.unused p) (p.roots (a.unused p) config) w ∧
      ∀ fuel, enough ≤ fuel → p.collect config a fuel = some ⟨w, a.consult p w.asked,
        w.finish p (p.roots (a.unused p) config) (p.rootWarnings config.mode)⟩ := by
  -- every type that is asked about has an answer, whatever is remembered
  obtain ⟨r, enough, hcollect⟩ := exists_collect config (preserves_sound hacyclic)
    DropMemo.sound_empty a (fun inst hreach _ hgen m hm => by
      obtain ⟨ns, hns⟩ := hscans inst (needed_of_reachedFrom hacyclic hreach) hgen
      obtain ⟨fuel, m', h⟩ := settle_complete hacyclic ((scans_iff hacyclic).1 hns).2 hm
      exact ⟨fuel, _, h⟩)
  obtain ⟨w, hrun, rfl⟩ := collect_eq_some_iff.1 (hcollect enough (Nat.le_refl _))
  obtain ⟨hmoves, hdone⟩ := Walk.moves_of_run hrun
  have hw := Walk.complete_of_moves hacyclic hwithin hscans
    (inv_startWalk DropMemo.sound_empty _) hmoves hdone
  exact ⟨w, enough, hw, hcollect⟩

/-- Collection is exact: if everything needed is within the limits and no scan of it fails, the
    walk ends, whatever the order of its steps, and unless two instances have one symbol there is a
    collection of exactly the needed instances and their uses, the same for every order. -/
theorem collect_exact (hacyclic : p.ByValueAcyclic) (hfinite : p.FiniteToClassify) (a : Analyzer)
    (hwithin : ∀ inst, p.Needed (a.unused p) (p.roots (a.unused p) config) inst →
      config.Within inst)
    (hscans : ∀ inst, p.Needed (a.unused p) (p.roots (a.unused p) config) inst →
      (p.info inst).isGenerated = true → (p.needs (a.unused p) inst).failure = none) :
    ∃ r enough, (∀ fuel, enough ≤ fuel → p.collect config a fuel = some r) ∧
      ((∃ s t u, r.outcome = .error [.symbolClash s t u]) ∨
        ∃ c, r.outcome = .ok c ∧ c.IsExact p (a.unused p) (p.roots (a.unused p) config) ∧
          ∀ w, Relation.ReflTransGen (Walk.Moves p config (a.unused p))
              (Walk.start p (a.unused p) (p.rootItems config.mode)) w → w.isDone = true →
            w.finish p (p.roots (a.unused p) config) (p.rootWarnings config.mode) = .ok c) := by
  have hscans : ∀ inst, p.Needed (a.unused p) (p.roots (a.unused p) config) inst →
      (p.info inst).isGenerated = true → ∃ ns, p.Scans (a.unused p) inst ns := by
    intro inst hinst hgen
    obtain ⟨ns, hns⟩ := exists_settles (hfinite.exists_drops hacyclic)
      (p.needs (a.unused p) inst).found
    exact ⟨ns, (scans_iff hacyclic).2 ⟨hscans inst hinst hgen, hns⟩⟩
  obtain ⟨w, enough, hw, hcollect⟩ := exists_complete hacyclic a hwithin hscans
  refine ⟨_, enough, hcollect, ?_⟩
  obtain hclash | ⟨c, hc⟩ := Walk.finish_cases (p.roots (a.unused p) config)
    (p.rootWarnings config.mode) hw.fatal hw.errors
  · exact .inl hclash
  · refine .inr ⟨c, hc, hw.isExact hc hacyclic, ?_⟩
    -- any other order records the same, and the collection is made of the records alone
    intro w' hmoves' hdone'
    have hw' := Walk.complete_of_moves hacyclic hwithin hscans
      (inv_startWalk DropMemo.sound_empty _) hmoves' hdone'
    exact Walk.finish_congr hw.inv.nodup (hw.records_perm hacyclic hw') hw'.fatal hw'.errors hc

/-- The sample program meets the conditions, its six instances are listed, and no two of them have
    one symbol: it is collected. -/
theorem collect_exact_sample : sample.ByValueAcyclic ∧ sample.FiniteToClassify ∧
    ∃ r c enough, (∀ fuel, enough ≤ fuel → sample.collect {} { enabled := true } fuel = some r) ∧
      r.outcome = .ok c ∧ c.IsExact sample (Analyzer.unused { enabled := true } sample)
        (sample.roots (Analyzer.unused { enabled := true } sample) {}) ∧
      (∀ w, Relation.ReflTransGen
          (Walk.Moves sample {} (Analyzer.unused { enabled := true } sample))
          (Walk.start sample (Analyzer.unused { enabled := true } sample)
            (sample.rootItems .lazy)) w → w.isDone = true →
        w.finish sample (sample.roots (Analyzer.unused { enabled := true } sample) {})
          (sample.rootWarnings .lazy) = .ok c) ∧
      c.Uses ⟨.item 0, []⟩ ⟨.item 1, [.ty (.prim .u8)]⟩ .call := by
  have hcheck : sample.isClosedWithin (Analyzer.unused { enabled := true } sample) {} 10
      [⟨.item 0, []⟩, ⟨.item 1, [.ty (.adt 3 [])]⟩, ⟨.item 1, [.ty (.prim .u8)]⟩,
        ⟨.item 2, [.ty (.param 0)]⟩, .glue (.adt 3 []), ⟨.item 4, []⟩] = true := by
    decide +kernel
  refine ⟨acyclic_sample, finiteToClassify_sample, ?_⟩
  obtain ⟨r, enough, hcollect, houtcome⟩ :=
    collect_exact acyclic_sample finiteToClassify_sample { enabled := true }
      (fun inst h => (needed_of_isClosedWithin acyclic_sample hcheck h).2.1)
      (fun inst h hgen => by
        obtain ⟨-, -, hscan⟩ := needed_of_isClosedWithin acyclic_sample hcheck h
        obtain ⟨ns, hns⟩ := hscan hgen
        exact hns.1)
  -- with enough fuel the walk is the one that is known to end well
  obtain ⟨r', c, hr', hc, -, huses⟩ := exists_collection_sample
  have hr := hcollect _ (Nat.le_max_left enough 20)
  obtain rfl := Option.some.inj (hr.symm.trans (collect_mono (Nat.le_max_right enough 20) hr'))
  obtain ⟨s, t, u, hclash⟩ | ⟨c', hc', hexact, horders⟩ := houtcome
  · exact nomatch hc.symm.trans hclash
  · obtain rfl := Except.ok.inj (hc.symm.trans hc')
    exact ⟨r, c, enough, hcollect, hc, hexact, horders, huses⟩

end Program

end Monomorph
