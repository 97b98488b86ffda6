import Mathlib.Data.List.Nodup
import Monomorph.Proofs.Graph
import Monomorph.Proofs.Walk

/-!
# What a collection says of the walk

When a walk ends without errors its records are sorted by symbol and numbered, and the uses of each
record become edges between numbers. `Walk.finish` loses nothing on the way: as many nodes as
records, and an edge for every use (`mem_usesOf_finish`), as long as every instance was recorded
once and every use points to a recorded instance.
-/

namespace Monomorph

/-! ## Sorting by symbol -/

/-- Where no neighbours of a sorted list have one symbol, no two members have. -/
theorem pairwise_lt_of_findClash {ms : List Member}
    (hsorted : ms.Pairwise fun a b => Text.le a.symbol b.symbol = true)
    (h : findClash ms = none) : ms.Pairwise fun a b => a.symbol < b.symbol := by
  induction ms with
  | nil => exact .nil
  | cons a rest ih =>
    obtain ⟨ha, hrest⟩ := List.pairwise_cons.1 hsorted
    cases rest with
    | nil => exact List.pairwise_singleton _ a
    | cons b rest =>
      unfold findClash at h
      split at h
      · exact nomatch h
      · next hne =>
        -- the next member is larger, and so are all behind it
        have hab : a.symbol < b.symbol := Text.lt_of_le_of_ne (ha b List.mem_cons_self) hne
        have ih := ih hrest h
        refine List.pairwise_cons.2 ⟨?_, ih⟩
        intro c hc
        obtain rfl | hc := List.mem_cons.1 hc
        · exact hab
        · exact String.lt_trans hab ((List.pairwise_cons.1 ih).1 c hc)

/-- Where all symbols differ, no neighbours have one symbol. -/
theorem findClash_eq_none {ms : List Member} (h : (ms.map Member.symbol).Nodup) :
    findClash ms = none := by
  induction ms with
  | nil => rfl
  | cons a rest ih =>
    rw [List.map_cons, List.nodup_cons] at h
    -- The first two differ, and the rest has none by induction.
    cases rest with
    | nil => rfl
    | cons b rest =>
      unfold findClash
      have hne : a.symbol ≠ b.symbol := fun he =>
        h.1 (List.mem_map.2 ⟨b, List.mem_cons_self, he.symm⟩)
      rw [if_neg hne]
      exact ih h.2

namespace Walk

variable {p : Program} {w : Walk}

/-- The members are those recorded, each with its symbol. -/
theorem members_perm : (w.members p).Perm
    (w.records.map fun r => ⟨r.inst, r.info, r.inst.symbol p⟩) :=
  List.mergeSort_perm _ _

/-- A member is a recorded instance with its symbol. -/
theorem mem_members {m : Member} : m ∈ w.members p ↔
    ∃ r ∈ w.records, m = ⟨r.inst, r.info, r.inst.symbol p⟩ := by
  rw [members_perm.mem_iff, List.mem_map]
  simp only [eq_comm]

/-- The members are in the order of their symbols. -/
theorem pairwise_members : (w.members p).Pairwise fun a b => Text.le a.symbol b.symbol = true := by
  refine List.pairwise_mergeSort ?_ ?_ _
  · intro a b c hab hbc
    exact Text.le_trans hab hbc
  · intro a b
    exact Text.le_total _ _

/-- Every instance that was recorded once is a member once. -/
theorem nodup_members (h : (w.records.map Record.inst).Nodup) :
    ((w.members p).map Member.inst).Nodup := by
  have hperm := (@members_perm p w).map Member.inst
  rw [List.map_map] at hperm
  exact hperm.symm.nodup h

/-- A walk comes to a collection exactly if nothing failed and no symbol occurs twice. -/
theorem finish_eq_ok_iff {roots : List Instance} {warnings : List Diagnostic} {c : Collection} :
    w.finish p roots warnings = .ok c ↔ w.fatal = none ∧ w.errors = [] ∧
      findClash (w.members p) = none ∧ c = ⟨w.graph p, (w.graph p).ids.filter fun i =>
        match (w.graph p).nodes[i]? with
        | some m => roots.contains m.inst
        | none => false, warnings⟩ := by
  unfold finish
  -- The checks in their order: a fatal error, errors, a clash.
  cases hfatal : w.fatal with
  | some e => simp
  | none =>
    cases herrors : w.errors with
    | cons e es => simp
    | nil =>
      cases findClash (w.members p) with
      | some ab => simp
      | none =>
        simp only [List.isEmpty_nil, Bool.not_true, Bool.false_eq_true, if_false, true_and]
        constructor
        · intro h
          exact (Except.ok.inj h).symm
        · intro h
          subst h
          rfl

/-- Where nothing failed, the walk comes to a collection or two instances have one symbol. -/
theorem finish_cases (roots : List Instance) (warnings : List Diagnostic)
    (hfatal : w.fatal = none) (herrors : w.errors = []) :
    (∃ s t u, w.finish p roots warnings = .error [.symbolClash s t u]) ∨
      ∃ c, w.finish p roots warnings = .ok c := by
  unfold finish
  rw [hfatal, herrors]
  -- no two members have one symbol, or the first two of them are reported
  cases findClash (w.members p) with
  | none => exact .inr ⟨_, rfl⟩
  | some ab =>
    obtain ⟨a, b⟩ := ab
    left
    simp only [List.isEmpty_nil, Bool.not_true, Bool.false_eq_true, if_false, clashError]
    split <;> exact ⟨_, _, _, rfl⟩

/-- Where nothing ended the walk and errors were gathered, they are reported. -/
theorem finish_eq_report (roots : List Instance) (warnings : List Diagnostic)
    (hfatal : w.fatal = none) (herrors : w.errors ≠ []) :
    w.finish p roots warnings = .error w.report := by
  have hsome : (!w.errors.isEmpty) = true := by simpa using herrors
  simp only [finish, hfatal, hsome, if_true]

/-- What ended the walk is reported alone. If nothing did, the errors gathered are reported, or that
    two instances have one symbol. -/
theorem cases_of_finish {roots : List Instance} {warnings : List Diagnostic} {es : List Error}
    (h : w.finish p roots warnings = .error es) :
    (∃ e, w.fatal = some e ∧ es = [e]) ∨
      w.fatal = none ∧ (es = w.report ∨ ∃ s t u, es = [.symbolClash s t u]) := by
  -- A fatal error is reported alone; without one the errors decide, and only without any a clash.
  cases hfatal : w.fatal with
  | some e =>
    rw [finish, hfatal] at h
    exact .inl ⟨e, rfl, (Except.error.inj h).symm⟩
  | none =>
    refine .inr ⟨rfl, ?_⟩
    by_cases herrors : w.errors = []
    · obtain ⟨s, t, u, hclash⟩ | ⟨c, hc⟩ := finish_cases roots warnings hfatal herrors
      · exact .inr ⟨s, t, u, Except.error.inj (h.symm.trans hclash)⟩
      · exact nomatch h.symm.trans hc
    · have hreport := finish_eq_report (p := p) roots warnings hfatal herrors
      exact .inl (Except.error.inj (h.symm.trans hreport))

/-- The report has every error and no other one. -/
theorem mem_report {e : Error} : e ∈ w.report ↔ e ∈ w.errors := by
  rw [report, mem_dropRepeats, List.mem_mergeSort, List.mem_reverse]

/-- Where nothing failed and all symbols differ, the walk comes to a collection. -/
theorem exists_finish_eq_ok (roots : List Instance) (warnings : List Diagnostic)
    (hfatal : w.fatal = none) (herrors : w.errors = [])
    (hsymbols : (w.records.map fun r => r.inst.symbol p).Nodup) :
    ∃ c, w.finish p roots warnings = .ok c := by
  have hperm := (@members_perm p w).map Member.symbol
  rw [List.map_map] at hperm
  have hclash := findClash_eq_none (hperm.symm.nodup hsymbols)
  exact ⟨_, finish_eq_ok_iff.2 ⟨hfatal, herrors, hclash, rfl⟩⟩

end Walk

/-! ## Numbers and instances -/

section Numbers

variable {ms : List Member}

/-- Among members that differ as instances, an instance has the number of its place. -/
theorem findIdx?_inst_eq_some_iff (h : (ms.map Member.inst).Nodup) {inst : Instance} {i : Nat} :
    (ms.findIdx? fun m => m.inst == inst) = some i ↔ ∃ m, ms[i]? = some m ∧ m.inst = inst := by
  induction ms generalizing i with
  -- the members before the position are other instances
  | nil => simp
  | cons a ms ih =>
    rw [List.map_cons, List.nodup_cons] at h
    rw [List.findIdx?_cons]
    by_cases ha : a.inst = inst
    · -- found here, and nowhere else in the rest
      have hnot : ∀ m ∈ ms, m.inst ≠ inst := by
        intro m hm he
        exact h.1 (List.mem_map.2 ⟨m, hm, he.trans ha.symm⟩)
      cases i with
      | zero => simp [ha]
      | succ i =>
        simp only [ha, beq_self_eq_true, if_true, List.getElem?_cons_succ]
        constructor
        · intro h
          exact nomatch Option.some.inj h
        · intro h
          obtain ⟨m, hm, he⟩ := h
          exact absurd he (hnot m (List.mem_of_getElem? hm))
    · have hne : (a.inst == inst) = false := beq_eq_false_iff_ne.2 ha
      rw [hne, if_neg Bool.false_ne_true, Option.map_eq_some_iff]
      cases i with
      | zero => simp [ha]
      | succ i =>
        rw [List.getElem?_cons_succ, ← ih h.2]
        simp

/-- Among records of different instances, an instance has the record that is about it. -/
theorem find?_inst_eq_some_iff {records : List Record} (h : (records.map Record.inst).Nodup)
    {inst : Instance} {r : Record} :
    (records.find? fun s => s.inst == inst) = some r ↔ r ∈ records ∧ r.inst = inst := by
  constructor
  · intro hr
    have hfound := List.find?_some hr
    exact ⟨List.mem_of_find?_eq_some hr, eq_of_beq hfound⟩
  · intro ⟨hr, hinst⟩
    -- The search cannot fail, and what it finds is the record asked for, as no two have one
    -- instance.
    cases hfind : records.find? fun s => s.inst == inst with
    | none => exact absurd (beq_iff_eq.2 hinst) (List.find?_eq_none.1 hfind r hr)
    | some s =>
      have hfound := List.find?_some hfind
      have he : s.inst = r.inst := (eq_of_beq hfound).trans hinst.symm
      rw [List.inj_on_of_nodup_map h (List.mem_of_find?_eq_some hfind) hr he]

end Numbers

namespace Collection

/-- The instance of one node is the instance of no other. -/
theorem member?_inj {c : Collection} (h : (c.members.map Member.inst).Nodup) {i j : NodeId}
    {m n : Member} (hi : c.member? i = some m) (hj : c.member? j = some n)
    (he : m.inst = n.inst) : i = j := by
  have hi := (findIdx?_inst_eq_some_iff h).2 ⟨m, hi, he⟩
  have hj := (findIdx?_inst_eq_some_iff h).2 ⟨n, hj, rfl⟩
  exact Option.some.inj (hi.symm.trans hj)

/-- An instance's node is where it is a member. -/
theorem nodeOf?_eq_some_iff {c : Collection} (h : (c.members.map Member.inst).Nodup)
    {inst : Instance} {i : NodeId} :
    c.nodeOf? inst = some i ↔ ∃ m, c.member? i = some m ∧ m.inst = inst :=
  findIdx?_inst_eq_some_iff h

/-- A collection contains the instances of its members. -/
theorem contains_iff {c : Collection} {inst : Instance} :
    c.contains inst = true ↔ ∃ m ∈ c.members, m.inst = inst := by
  rw [contains, nodeOf?, List.findIdx?_isSome, List.any_eq_true]
  simp only [beq_iff_eq]
  rfl

/-- Whether one collected instance uses another one in some way. -/
def Uses (c : Collection) (a b : Instance) (kind : UseKind) : Prop :=
  ∃ i m e t, c.member? i = some m ∧ m.inst = a ∧ e ∈ c.graph.usesOf i ∧
    c.member? e.target = some t ∧ t.inst = b ∧ e.kind = kind

end Collection

namespace Walk

variable {p : Program} {w : Walk} {roots : List Instance} {warnings : List Diagnostic}
  {c : Collection}

section Finish

variable (h : w.finish p roots warnings = .ok c)

include h

/-- A finished walk has the members that it recorded. -/
theorem members_finish : c.members = w.members p := by
  obtain ⟨-, -, -, rfl⟩ := finish_eq_ok_iff.1 h
  rfl

/-- A member of the result is a recorded instance with its symbol. -/
theorem mem_members_finish {m : Member} : m ∈ c.members ↔
    ∃ r ∈ w.records, m = ⟨r.inst, r.info, r.inst.symbol p⟩ := by
  rw [members_finish h, mem_members]

/-- The record behind a node. -/
theorem exists_record_of_member {i : NodeId} {m : Member} (hm : c.member? i = some m) :
    ∃ r ∈ w.records, m.inst = r.inst ∧ m.info = r.info := by
  obtain ⟨r, hr, rfl⟩ := (mem_members_finish h).1 (List.mem_of_getElem? hm)
  exact ⟨r, hr, rfl, rfl⟩

/-- The members of the result are in strict order of their symbols. -/
theorem pairwise_members_finish : c.members.Pairwise fun a b => a.symbol < b.symbol := by
  obtain ⟨-, -, hclash, -⟩ := finish_eq_ok_iff.1 h
  rw [members_finish h]
  exact pairwise_lt_of_findClash pairwise_members hclash

/-- No two members of the result have one symbol. -/
theorem nodup_symbols_finish : (c.members.map Member.symbol).Nodup := by
  refine List.pairwise_map.2 ((pairwise_members_finish h).imp ?_)
  intro a b hlt he
  rw [he] at hlt
  exact String.lt_irrefl _ hlt

/-- A member of the result is told by its symbol. -/
theorem symbol_inj_finish {m n : Member} (hm : m ∈ c.members) (hn : n ∈ c.members)
    (he : m.symbol = n.symbol) : m = n :=
  List.inj_on_of_nodup_map (nodup_symbols_finish h) hm hn he

/-- No instance is a member of the result twice. -/
theorem nodup_members_finish (hnodup : (w.records.map Record.inst).Nodup) :
    (c.members.map Member.inst).Nodup := by
  rw [members_finish h]
  exact nodup_members hnodup

/-- The uses of a node of the result are in strict order. -/
theorem pairwise_usesOf_finish (i : NodeId) : (c.graph.usesOf i).Pairwise Edge.Before := by
  obtain ⟨-, -, -, rfl⟩ := finish_eq_ok_iff.1 h
  exact UseGraph.pairwise_usesOf_ofUses _ _ i

/-- The roots of a collection are the nodes of the instances that the walk started from. -/
theorem mem_roots_finish {i : NodeId} :
    i ∈ c.roots ↔ ∃ m, c.member? i = some m ∧ m.inst ∈ roots := by
  obtain ⟨-, -, -, rfl⟩ := finish_eq_ok_iff.1 h
  simp only [List.mem_filter, Collection.member?, UseGraph.ids, UseGraph.size, List.mem_range]
  cases hm : (w.graph p).nodes[i]? with
  | none => simp
  | some m => simp [(List.getElem?_eq_some_iff.1 hm).1]

/-- A node uses the nodes of the instances that its own instance was recorded to use. -/
theorem mem_usesOf_finish (hnodup : (w.records.map Record.inst).Nodup) {i : NodeId} {e : Edge} :
    e ∈ c.graph.usesOf i ↔ ∃ m, c.member? i = some m ∧ ∃ r ∈ w.records, r.inst = m.inst ∧
      ∃ t, c.member? e.target = some t ∧ (t.inst, e.kind) ∈ r.uses := by
  have hms := nodup_members (p := p) hnodup
  obtain ⟨-, -, -, rfl⟩ := finish_eq_ok_iff.1 h
  simp only [Collection.member?, graph, UseGraph.mem_usesOf_ofUses]
  have hnodes : ∀ us, (UseGraph.ofUses (w.members p) us).nodes = w.members p := fun _ => rfl
  simp only [hnodes, List.getElem?_map]
  constructor
  · -- an edge was made of a use, for which the target was looked up
    intro ⟨hi, he⟩
    rw [List.getElem?_eq_getElem hi, Option.map_some, Option.getD_some] at he
    unfold edges at he
    split at he
    · next r hfind =>
      obtain ⟨hr, hinst⟩ := (find?_inst_eq_some_iff hnodup).1 hfind
      obtain ⟨u, hu, he⟩ := List.mem_filterMap.1 he
      obtain ⟨target, htarget, rfl⟩ := Option.map_eq_some_iff.1 he
      obtain ⟨t, ht, htinst⟩ := (findIdx?_inst_eq_some_iff hms).1 htarget
      refine ⟨_, List.getElem?_eq_getElem hi, r, hr, hinst, t, ht, ?_⟩
      rw [htinst]
      exact hu
    · exact nomatch he
  · -- the look-up of a target that is a member does not fail, so the use is not left out
    intro ⟨m, hm, r, hr, hinst, t, ht, hu⟩
    obtain ⟨hi, hget⟩ := List.getElem?_eq_some_iff.1 hm
    refine ⟨hi, ?_⟩
    rw [hm, Option.map_some, Option.getD_some]
    unfold edges
    rw [(find?_inst_eq_some_iff hnodup).2 ⟨hr, hinst⟩]
    refine List.mem_filterMap.2 ⟨_, hu, ?_⟩
    rw [(findIdx?_inst_eq_some_iff hms).2 ⟨t, ht, rfl⟩, Option.map_some]

/-- Edges lead to members, for the target of a use is a member or there is no edge. -/
theorem target_lt_finish (hnodup : (w.records.map Record.inst).Nodup) {i : NodeId} {e : Edge}
    (he : e ∈ c.graph.usesOf i) : e.target < c.size := by
  obtain ⟨-, -, -, -, -, t, ht, -⟩ := (mem_usesOf_finish h hnodup).1 he
  exact (List.getElem?_eq_some_iff.1 ht).1

end Finish

end Walk

end Monomorph
