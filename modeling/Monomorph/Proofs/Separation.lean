import Monomorph.Proofs.UnitNames

/-!
# Classes of code in one unit

Placement is to keep classes of code apart: code that changes only when its own source does, code
that comes from generic items or from the compiler, and the two kinds of copies from other crates.
Units are told apart by name, and a name puts hyphens where the path of a region has colons. So the
unit of a region can have the name of a unit of another class, but only in two ways
(`Program.Mistaken`); two classes share a unit exactly if one of these occurs
(`Program.place_holds_two_iff`).
-/

namespace Monomorph

/-! ## Paths -/

namespace Text

/-- A text without colons is one segment. -/
theorem segments_of_notMem {s : List Char} (h : ':' ∉ s) : segments s = [s] := by
  induction s with
  | nil => rfl
  | cons c s ih =>
    -- no character is a colon, so none begins a separator
    rw [List.mem_cons, not_or] at h
    rw [segments, ih h.2]
    exact fun _ hc => absurd hc.symm h.1

/-- A separator ends the segment in front of it. -/
theorem segments_append {s : List Char} (h : ':' ∉ s) (rest : List Char) :
    segments (s ++ ':' :: ':' :: rest) = s :: segments rest := by
  induction s with
  | nil => rfl
  | cons c s ih =>
    rw [List.mem_cons, not_or] at h
    rw [List.cons_append, segments, ih h.2]
    exact fun _ hc => absurd hc.symm h.1

/-- The segments can be read off a path that is put together of texts without colons. -/
theorem segments_intercalate {ss : List (List Char)} (hne : ss ≠ []) (h : ∀ s ∈ ss, ':' ∉ s) :
    segments ([':', ':'].intercalate ss) = ss := by
  induction ss with
  | nil => exact absurd rfl hne
  | cons s ss ih =>
    rw [List.forall_mem_cons] at h
    -- Each segment but the last is followed by a separator, where the text is split again.
    cases ss with
    | nil => rw [List.intercalate_singleton, segments_of_notMem h.1]
    | cons t ts =>
      rw [List.intercalate_cons_cons, List.append_assoc, List.cons_append, List.cons_append,
        List.nil_append, segments_append h.1, ih (List.cons_ne_nil t ts) h.2]

/-- A path is the segments it is split into with separators in between. -/
theorem intercalate_segments (path : List Char) : [':', ':'].intercalate (segments path) = path :=
  (joinSegments_eq_intercalate _ _).symm.trans (joinSegments_segments path)

/-- A path has certain segments without colons exactly if it is put together of them. -/
theorem segments_eq_iff {path : List Char} {ss : List (List Char)} (hne : ss ≠ [])
    (h : ∀ s ∈ ss, ':' ∉ s) : segments path = ss ↔ path = [':', ':'].intercalate ss := by
  constructor
  · rintro rfl
    exact (intercalate_segments path).symm
  · rintro rfl
    exact segments_intercalate hne h

end Text

/-! ## Classes of code -/

/-- The classes of code that placement is to keep apart. -/
inductive CodeClass where
  /-- Local code that is not generic. -/
  | stable
  /-- Local generic code and bodies made by the compiler. -/
  | volatile
  /-- Copies of items of other crates that are not generic. -/
  | inlineCopy
  /-- Copies of generic items of other crates. -/
  | genericCopy
  deriving DecidableEq, Repr

/-- The class of a bucket. -/
def Bucket.codeClass : Bucket → CodeClass
  | .stable _ => .stable
  | .volatile _ => .volatile
  | .externInline => .inlineCopy
  | .externGeneric _ => .genericCopy

/-- The buckets of stable code are those of the regions. -/
theorem Bucket.codeClass_eq_stable_iff {b : Bucket} :
    b.codeClass = .stable ↔ ∃ r, b = .stable r := by
  cases b <;> simp [codeClass]

namespace Program

variable (p : Program)

/-- The class of an instance. -/
def codeClass (inst : Instance) : CodeClass :=
  match inst.what with
  | .dropGlue | .vtableShim _ => .volatile
  | .item i | .static i =>
    if (p.item i).provenance.isLocal then
      if (p.item i).generics.isEmpty then .stable else .volatile
    else
      if (p.item i).generics.isEmpty then .inlineCopy else .genericCopy

/-- The path that a region would have whose unit is called as a volatile one. -/
def volatilePath (r? : Option RegionId) : String :=
  (match r? with
    | some r => p.regionName r
    | none => "fallback") ++ "::volatile"

/-- Whether a bucket's unit is called as that of a bucket of another class. -/
inductive Mistaken : Bucket → Bucket → Prop
  | volatile {r : RegionId} {r? : Option RegionId} (h : p.regionName r = p.volatilePath r?) :
      Mistaken (.stable r) (.volatile r?)
  | inline {r : RegionId} (h : p.regionName r = "extern::inline") :
      Mistaken (.stable r) .externInline

variable {p}

/-! ## When units have one name -/

/-- Buckets have units of one name exactly if these consist of the same words. -/
theorem WellNamed.unitName_eq_iff (hp : p.WellNamed) {b b' : Bucket} :
    p.unitName b = p.unitName b' ↔ p.bucketWords b = p.bucketWords b' := by
  constructor
  · intro h
    obtain ⟨w, ws, hwords, hsplit⟩ := hp.splitOn_unitName b
    obtain ⟨w', ws', hwords', hsplit'⟩ := hp.splitOn_unitName b'
    rw [h, hsplit', List.cons.injEq] at hsplit
    obtain ⟨hw, rfl⟩ := hsplit
    -- the crate's name and the point stand in front of the first word on both sides
    have hw := List.append_cancel_left hw
    rw [hwords, hwords', (List.cons.inj hw).2]
  · intro h
    rw [← String.toList_inj, toList_unitName, toList_unitName, h]

/-- The path that a volatile unit is called by has the words of its bucket. -/
theorem toList_volatilePath (r? : Option RegionId) : (p.volatilePath r?).toList =
    [':', ':'].intercalate (p.bucketWords (.volatile r?)) := by
  -- a region's path goes on with one more segment
  unfold volatilePath
  cases r? with
  | none =>
    rw [bucketWords, List.intercalate_cons_cons, List.intercalate_singleton]
    simp
  | some r =>
    rw [bucketWords, Text.intercalate_append (Text.segments_ne_nil _) (List.cons_ne_nil _ _),
      Text.intercalate_segments, List.intercalate_singleton]
    simp

/-- A region's unit has the words of a volatile one where the region lies at its path. -/
theorem WellNamed.stable_eq_volatile_iff (hp : p.WellNamed) {r : RegionId}
    {r? : Option RegionId} : p.bucketWords (.stable r) = p.bucketWords (.volatile r?) ↔
      p.regionName r = p.volatilePath r? := by
  rw [← String.toList_inj, toList_volatilePath]
  -- Both are the words of a path, which can be told from the path where no word has a colon.
  apply Text.segments_eq_iff
  · cases r? <;> simp [bucketWords]
  · cases r? with
    | none => simp [bucketWords]
    | some r =>
      intro w hw
      rcases List.mem_append.1 hw with hw | hw
      · exact fun hc => (hp.ne_marks hw _ hc).2.2 rfl
      · rw [List.mem_singleton.1 hw]
        decide

/-- A region's unit has the words of the inline one where the region lies at its path. -/
theorem stable_eq_inline_iff {r : RegionId} :
    p.bucketWords (.stable r) = p.bucketWords .externInline ↔
      p.regionName r = "extern::inline" := by
  -- both are written as paths of the same words
  have hpath : "extern::inline".toList =
      [':', ':'].intercalate (p.bucketWords .externInline) := by
    rw [bucketWords, List.intercalate_cons_cons, List.intercalate_singleton]
    simp
  rw [← String.toList_inj, hpath]
  exact Text.segments_eq_iff (List.cons_ne_nil _ _) (by simp [bucketWords])

/-- The names of units for copies of generic items have a point where no region has one. -/
theorem WellNamed.stable_ne_generic (hp : p.WellNamed) {r : RegionId} {c : CrateId} :
    p.bucketWords (.stable r) ≠ p.bucketWords (.externGeneric c) := by
  intro h
  -- the segment with the crate's name has a dot, and no segment of a region has one
  have hmem : "generic.".toList ++ (p.crateName c).toList ∈
      Text.segments (p.regionName r).toList := by
    show _ ∈ p.bucketWords (.stable r)
    rw [h, bucketWords]
    simp
  exact (hp.ne_marks hmem '.' (by simp)).2.1 rfl

/-- A volatile unit's name ends with its mark. -/
theorem getLast?_volatile (r? : Option RegionId) :
    (p.bucketWords (.volatile r?)).getLast? = some "volatile".toList := by
  cases r? <;> simp [bucketWords]

/-- The inline unit's name ends with its mark. -/
theorem getLast?_inline : (p.bucketWords .externInline).getLast? = some "inline".toList := rfl

/-- A generic copy's unit is named last for its crate. -/
theorem getLast?_generic (c : CrateId) : (p.bucketWords (.externGeneric c)).getLast? =
    some ("generic.".toList ++ (p.crateName c).toList) := rfl

/-- The last word tells the classes apart that are not stable. -/
theorem codeClass_eq_of_bucketWords {b b' : Bucket} (h : p.bucketWords b = p.bucketWords b')
    (hb : b.codeClass ≠ .stable) (hb' : b'.codeClass ≠ .stable) : b.codeClass = b'.codeClass := by
  have hlast : (p.bucketWords b).getLast? = (p.bucketWords b').getLast? := by rw [h]
  clear h
  cases b <;> cases b' <;>
    simp_all [getLast?_volatile, getLast?_inline, getLast?_generic, Bucket.codeClass]

/-- A unit of another class that has the name of a region's unit is mistaken for it. -/
theorem WellNamed.mistaken_of_bucketWords (hp : p.WellNamed) {r : RegionId} {b : Bucket}
    (h : p.bucketWords (.stable r) = p.bucketWords b) (hb : b.codeClass ≠ .stable) :
    p.Mistaken (.stable r) b := by
  cases b with
  | stable r' => exact absurd rfl hb
  | volatile r? => exact .volatile (hp.stable_eq_volatile_iff.1 h)
  | externInline => exact .inline (stable_eq_inline_iff.1 h)
  | externGeneric c => exact absurd h hp.stable_ne_generic

/-- A unit that is mistaken for another one has its name and another class. -/
theorem WellNamed.unitName_of_mistaken (hp : p.WellNamed) {b b' : Bucket} (h : p.Mistaken b b') :
    p.unitName b = p.unitName b' ∧ b.codeClass ≠ b'.codeClass := by
  rw [hp.unitName_eq_iff]
  cases h with
  | volatile h => exact ⟨hp.stable_eq_volatile_iff.2 h, CodeClass.noConfusion⟩
  | inline h => exact ⟨stable_eq_inline_iff.2 h, CodeClass.noConfusion⟩

/-- Units of different classes have one name exactly if one is mistaken for the other. -/
theorem WellNamed.mistaken_iff (hp : p.WellNamed) {b b' : Bucket} :
    p.Mistaken b b' ∨ p.Mistaken b' b ↔
      p.unitName b = p.unitName b' ∧ b.codeClass ≠ b'.codeClass := by
  constructor
  · rintro (h | h)
    · exact hp.unitName_of_mistaken h
    · exact (hp.unitName_of_mistaken h).imp Eq.symm Ne.symm
  · rintro ⟨h, hclass⟩
    rw [hp.unitName_eq_iff] at h
    -- one of the two is of stable code, since the names of the others end differently
    by_cases hb : b.codeClass = .stable
    · obtain ⟨r, rfl⟩ := Bucket.codeClass_eq_stable_iff.1 hb
      exact .inl (hp.mistaken_of_bucketWords h hclass.symm)
    · by_cases hb' : b'.codeClass = .stable
      · obtain ⟨r, rfl⟩ := Bucket.codeClass_eq_stable_iff.1 hb'
        exact .inr (hp.mistaken_of_bucketWords h.symm hclass)
      · exact absurd (codeClass_eq_of_bucketWords h hb hb') hclass

/-! ## Buckets and classes -/

/-- The bucket of an instance says its class. -/
theorem codeClass_of_bucketOf? {inst : Instance} {b : Bucket}
    (h : bucketOf? (p.info inst) inst.what = some b) : b.codeClass = p.codeClass inst := by
  have item : ∀ i, bucketOf? (p.info ⟨.item i, inst.args⟩) (.item i) = some b →
      b.codeClass = p.codeClass ⟨.item i, inst.args⟩ := by
    intro i h
    simp only [bucketOf?, info, InstanceDef.isSynthetic, Info.isLocal] at h
    -- an item is local or not, and generic or not
    cases hlocal : (p.item i).provenance.isLocal <;>
      cases hgeneric : (p.item i).generics.isEmpty <;> simp [hlocal, hgeneric] at h <;>
        simp [← h, codeClass, hlocal, hgeneric, Bucket.codeClass]
  obtain ⟨what, args⟩ := inst
  cases what with
  | dropGlue | vtableShim i =>
    obtain rfl := Option.some.inj h
    rfl
  | item i | static i => exact item i h

end Program

namespace Collection

variable {p : Program} {c : Collection}

/-- What is placed is in a unit. -/
theorem Placed.exists_mem {us : List Plan} (h : c.Placed p c.graph.ids us) {i : NodeId}
    {b : Bucket} (hb : c.bucket? i = some b) : ∃ u ∈ us, i ∈ u.nodes ∧ p.unitName b = u.name := by
  obtain ⟨m, hm, -⟩ := Option.bind_eq_some_iff.1 hb
  have hlt : i < c.graph.nodes.length := (List.getElem?_eq_some_iff.1 hm).1
  have hid : i ∈ c.graph.ids.filter fun i => (c.bucket? i).isSome := by
    rw [List.mem_filter, hb]
    exact ⟨List.mem_range.2 hlt, rfl⟩
  obtain ⟨u, hu, hi⟩ := List.mem_flatMap.1 (h.nodes.mem_iff.2 hid)
  obtain ⟨b', hb', hib⟩ := h.bucket u hu i hi
  -- The unit the node is in was named for the node's only bucket.
  obtain rfl := Option.some.inj (hb.symm.trans hib)
  exact ⟨u, hu, hi, h.named u hu b hb'⟩

/-- A unit has the nodes whose buckets have its name. -/
theorem Placed.mem_nodes_iff {us : List Plan} (h : c.Placed p c.graph.ids us) {u : Plan}
    (hu : u ∈ us) {i : NodeId} :
    i ∈ u.nodes ↔ ∃ b, c.bucket? i = some b ∧ p.unitName b = u.name := by
  constructor
  · intro hi
    -- units have different names, so the one that the node lies in is this one
    obtain ⟨b, hb, hib⟩ := h.bucket u hu i hi
    exact ⟨b, hib, h.named u hu b hb⟩
  · intro ⟨b, hb, hname⟩
    obtain ⟨v, hv, hi, hname'⟩ := h.exists_mem hb
    obtain rfl := List.inj_on_of_nodup_map h.names hu hv (hname.symm.trans hname')
    exact hi

end Collection

/-! ## Units with two classes of code -/

/-- Whether a unit has an instance of a class. -/
def CodegenUnit.Holds (p : Program) (u : CodegenUnit) (k : CodeClass) : Prop :=
  ∃ it ∈ u.items, p.codeClass it.inst = k

namespace Collection

variable (p : Program) (c : Collection)

/-- Whether a unit under construction has an instance of a class. -/
def Holds (u : Plan) (k : CodeClass) : Prop :=
  ∃ i ∈ u.nodes, ∃ m, c.member? i = some m ∧ p.codeClass m.inst = k

/-- Whether instances of two classes go into buckets of which one is mistaken for the other. -/
def Confuses (k l : CodeClass) : Prop :=
  ∃ i j b b', c.bucket? i = some b ∧ c.bucket? j = some b' ∧ b.codeClass = k ∧ b'.codeClass = l ∧
    (p.Mistaken b b' ∨ p.Mistaken b' b)

/-- The number of buckets that something goes into. -/
def bucketCount : Nat := (c.graph.ids.filterMap c.bucket?).dedup.length

variable {p c}

/-- There are no more units than buckets in use. -/
theorem length_place_le : (c.place p).length ≤ c.bucketCount := by
  -- there are as many units as names, and each of them is the name of a bucket
  have hnames : (c.bucketNames p).dedup ⊆
      (c.graph.ids.filterMap c.bucket?).dedup.map p.unitName := by
    intro name hname
    obtain ⟨b, hb, rfl⟩ := List.mem_map.1 (List.mem_dedup.1 hname)
    exact List.mem_map_of_mem (List.mem_dedup.2 hb)
  have hle := (List.subperm_of_subset (List.nodup_dedup _) hnames).length_le
  rwa [← length_place, List.length_map] at hle

/-- Where there are units enough, none are joined. -/
theorem plans_eq_place {config : Config} (h : c.bucketCount ≤ config.units) :
    c.plans p config = c.place p := by
  have hle := @length_place_le p c
  have hzero : (c.place p).length - max config.units 1 = 0 := by omega
  rw [plans, Plan.mergeTo, hzero, Plan.joinTimes]

/-- A unit has instances of a class exactly if some were put into the plan for it. -/
theorem holds_unitOf_iff {readable : Bool} {us : List Plan} {home : Nat} {u : Plan}
    {k : CodeClass} : (c.unitOf p readable us home u).Holds p k ↔ c.Holds p u k := by
  -- Items of the finished unit are made of the members of its nodes, one for each.
  constructor
  · intro ⟨it, hit, hk⟩
    obtain ⟨i, hi, him⟩ := List.mem_filterMap.1 (List.mem_mergeSort.1 hit)
    obtain ⟨m, hm, rfl⟩ := Option.map_eq_some_iff.1 him
    exact ⟨i, hi, m, hm, hk⟩
  · intro ⟨i, hi, m, hm, hk⟩
    have him : c.unitItem us home i = some ⟨m.inst, m.symbol, c.linkageOf us i m.info home,
        m.info.provenance.visibility, m.info.size⟩ := by rw [unitItem, hm, Option.map_some]
    exact ⟨_, List.mem_mergeSort.2 (List.mem_filterMap.2 ⟨i, hi, him⟩), hk⟩

end Collection

namespace Program

variable {p : Program} {config : Config} {a : Analyzer} {fuel : Nat} {r : CollectResult}
  {c : Collection}

/-- The program alone says which bucket an instance goes into, if it is collected. -/
theorem bucket?_of_collect (hr : p.collect config a fuel = some r) (hc : r.outcome = .ok c)
    {i : NodeId} {m : Member} (hm : c.member? i = some m) :
    c.bucket? i = bucketOf? (p.info m.inst) m.inst.what := by
  obtain ⟨size, hinfo⟩ := info_of_collect hr hc hm
  rw [Collection.bucket?, hm, Option.bind_some, hinfo]
  rfl

/-- A node's bucket is of the class of its instance. -/
theorem codeClass_of_bucket? (hr : p.collect config a fuel = some r) (hc : r.outcome = .ok c)
    {i : NodeId} {m : Member} {b : Bucket} (hm : c.member? i = some m)
    (hb : c.bucket? i = some b) : b.codeClass = p.codeClass m.inst :=
  codeClass_of_bucketOf? ((bucket?_of_collect hr hc hm).symm.trans hb)

/-- The classes of a unit are those of the buckets with its name. -/
theorem holds_place_iff (hr : p.collect config a fuel = some r) (hc : r.outcome = .ok c)
    {u : Plan} (hu : u ∈ c.place p) {k : CodeClass} :
    c.Holds p u k ↔ ∃ i b, c.bucket? i = some b ∧ p.unitName b = u.name ∧ b.codeClass = k := by
  have hplaced := Collection.placed_place p c
  constructor
  · -- A node in the unit has a bucket of the unit's name, and one with such a bucket is in the
    -- unit.
    intro ⟨i, hi, m, hm, hk⟩
    obtain ⟨b, hb, hname⟩ := (hplaced.mem_nodes_iff hu).1 hi
    exact ⟨i, b, hb, hname, (codeClass_of_bucket? hr hc hm hb).trans hk⟩
  · intro ⟨i, b, hb, hname, hk⟩
    obtain ⟨m, hm, -⟩ := Option.bind_eq_some_iff.1 hb
    exact ⟨i, (hplaced.mem_nodes_iff hu).2 ⟨b, hb, hname⟩, m, hm,
      (codeClass_of_bucket? hr hc hm hb).symm.trans hk⟩

/-- A unit at first has instances of two classes exactly if buckets of these classes have units of
    one name. -/
theorem exists_holds_place_iff (hr : p.collect config a fuel = some r) (hc : r.outcome = .ok c)
    {k l : CodeClass} : (∃ u ∈ c.place p, c.Holds p u k ∧ c.Holds p u l) ↔
      ∃ i j b b', c.bucket? i = some b ∧ c.bucket? j = some b' ∧ b.codeClass = k ∧
        b'.codeClass = l ∧ p.unitName b = p.unitName b' := by
  constructor
  · intro ⟨u, hu, hk, hl⟩
    obtain ⟨i, b, hb, hname, hk⟩ := (holds_place_iff hr hc hu).1 hk
    obtain ⟨j, b', hb', hname', hl⟩ := (holds_place_iff hr hc hu).1 hl
    exact ⟨i, j, b, b', hb, hb', hk, hl, hname.trans hname'.symm⟩
  · intro ⟨i, j, b, b', hb, hb', hk, hl, hname⟩
    -- the unit of the first node is also that of the second
    obtain ⟨u, hu, -, hname'⟩ := (Collection.placed_place p c).exists_mem hb
    exact ⟨u, hu, (holds_place_iff hr hc hu).2 ⟨i, b, hb, hname', hk⟩,
      (holds_place_iff hr hc hu).2 ⟨j, b', hb', hname.symm.trans hname', hl⟩⟩

/-- Where there are units enough, the units are those at first. -/
theorem exists_partition_holds_iff {config : Config} (h : c.bucketCount ≤ config.units) :
    ∃ units, c.partition p config = .ok units ∧ ∀ k l, (∃ u ∈ units, u.Holds p k ∧ u.Holds p l) ↔
      ∃ u ∈ c.place p, c.Holds p u k ∧ c.Holds p u l := by
  refine ⟨_, Collection.partition_eq_ok_iff.2 rfl, fun k l => ?_⟩
  rw [Collection.plans_eq_place h]
  constructor
  · -- Finished units are those of the placement, renamed and sorted.
    intro ⟨u, hu, hk, hl⟩
    obtain ⟨home, hhome, rfl⟩ := List.mem_mapIdx.1 (List.mem_mergeSort.1 hu)
    exact ⟨_, List.getElem_mem _, Collection.holds_unitOf_iff.1 hk,
      Collection.holds_unitOf_iff.1 hl⟩
  · intro ⟨u, hu, hk, hl⟩
    obtain ⟨home, hhome, rfl⟩ := List.mem_iff_getElem.1 hu
    exact ⟨_, List.mem_mergeSort.2 (List.mem_mapIdx.2 ⟨home, hhome, rfl⟩),
      Collection.holds_unitOf_iff.2 hk, Collection.holds_unitOf_iff.2 hl⟩

/-- Where crates and regions have good names, a unit at first has instances of two classes exactly
    if a bucket of the one is mistaken for a bucket of the other; and so it is with the units that
    are made if there are at most as many buckets as units wanted. -/
theorem place_holds_two_iff (hp : p.WellNamed) (hr : p.collect config a fuel = some r)
    (hc : r.outcome = .ok c) {k l : CodeClass} (hkl : k ≠ l) :
    ((∃ u ∈ c.place p, c.Holds p u k ∧ c.Holds p u l) ↔ c.Confuses p k l) ∧
      ∀ config', c.bucketCount ≤ config'.units → ∃ units, c.partition p config' = .ok units ∧
        ((∃ u ∈ units, u.Holds p k ∧ u.Holds p l) ↔ c.Confuses p k l) := by
  have hplace : (∃ u ∈ c.place p, c.Holds p u k ∧ c.Holds p u l) ↔ c.Confuses p k l := by
    rw [exists_holds_place_iff hr hc]
    constructor
    · intro ⟨i, j, b, b', hb, hb', hk, hl, hname⟩
      have hclass : b.codeClass ≠ b'.codeClass := by rwa [hk, hl]
      exact ⟨i, j, b, b', hb, hb', hk, hl, hp.mistaken_iff.2 ⟨hname, hclass⟩⟩
    · intro ⟨i, j, b, b', hb, hb', hk, hl, hmistaken⟩
      exact ⟨i, j, b, b', hb, hb', hk, hl, (hp.mistaken_iff.1 hmistaken).1⟩
  refine ⟨hplace, fun config' hcount => ?_⟩
  -- Where no units are joined, the cut holds what the placement does.
  obtain ⟨units, hunits, hholds⟩ := exists_partition_holds_iff hcount
  exact ⟨units, hunits, (hholds k l).trans hplace⟩

/-- Nothing is confused where no region is called `volatile` within another one, nor `inline`
    within `extern`. -/
theorem not_confuses_of_all (hvolatile : (p.regions.all fun name =>
      !"::volatile".toList.isSuffixOf name.toList) = true)
    (hinline : p.regions.contains "extern::inline" = false) {k l : CodeClass} :
    ¬ c.Confuses p k l := by
  have hmistaken : ∀ {b b'}, ¬ p.Mistaken b b' := by
    intro b b' h
    -- Either a declared region has the path, which the check excludes, or an undeclared one with
    -- the empty name would have it.
    cases h with
    | @volatile r r? h =>
      have hsuffix : "::volatile".toList <:+ (p.regionName r).toList := by
        rw [h]
        unfold volatilePath
        rw [String.toList_append]
        exact List.suffix_append _ _
      rcases p.regionName_mem_or r with hmem | hempty
      · have hnot := List.all_eq_true.1 hvolatile _ hmem
        rw [List.isSuffixOf_iff_suffix.2 hsuffix] at hnot
        exact Bool.false_ne_true hnot
      · rw [hempty] at hsuffix
        exact absurd hsuffix (by decide)
    | @inline r h =>
      rcases p.regionName_mem_or r with hmem | hempty
      · rw [h, ← List.contains_iff_mem, hinline] at hmem
        exact Bool.false_ne_true hmem
      · rw [hempty] at h
        exact absurd h (by decide)
  intro ⟨i, j, b, b', _, _, _, _, h⟩
  exact h.elim hmistaken hmistaken

/-- What is collected for the sample program with two regions is placed with its classes apart. -/
theorem place_holds_two_harbor : harbor.WellNamed ∧ CodeClass.stable ≠ .volatile ∧ ∃ r c,
    harbor.collect {} { enabled := true } 40 = some r ∧ r.outcome = .ok c ∧
      (¬ ∃ u ∈ c.place harbor, c.Holds harbor u .stable ∧ c.Holds harbor u .volatile) ∧
        ∀ config', c.bucketCount ≤ config'.units → ∃ units,
          c.partition harbor config' = .ok units ∧
            ¬ ∃ u ∈ units, u.Holds harbor .stable ∧ u.Holds harbor .volatile := by
  obtain ⟨r, c, hr, hc, -⟩ := exists_collection_harbor
  have hclass : CodeClass.stable ≠ .volatile := CodeClass.noConfusion
  -- The program has no region that could be mistaken.
  have hclear : ¬ c.Confuses harbor .stable .volatile :=
    not_confuses_of_all (by decide +kernel) (by decide +kernel)
  obtain ⟨hplace, hpartition⟩ := place_holds_two_iff wellNamed_harbor hr hc hclass
  refine ⟨wellNamed_harbor, hclass, r, c, hr, hc, hplace.not.2 hclear, fun config' hcount => ?_⟩
  obtain ⟨units, hunits, hholds⟩ := hpartition config' hcount
  exact ⟨units, hunits, hholds.not.2 hclear⟩

/-- A program with a generic function in a module and its entry in a module of that one, which is
    called `volatile`. -/
def mimic : Program where
  crates := ["app"]
  crateRegions := [0]
  regions := ["app", "net", "net::volatile"]
  items := #[
    { name := "main", path := "main", kind := .fn, region := 2
      body := some { ops := [
        { action := .use (.prim .u8) },
        { action := .call .direct 1 [.ty (.prim .u8)] }] } },
    { name := "fetch", path := "fetch", kind := .fn, region := 1
      generics := { params := [⟨"T", .type⟩] }
      body := some { ops := [{ action := .use (.param 0) }] } }]
  entries := [0]

/-- Both functions of the program are collected. -/
theorem exists_collection_mimic : ∃ r c,
    mimic.collect {} { enabled := true } 40 = some r ∧ r.outcome = .ok c ∧
      ∀ inst ∈ [⟨.item 0, []⟩, ⟨.item 1, [.ty (.prim .u8)]⟩], c.contains inst = true :=
  exists_collection (by decide +kernel)

/-- For that program a unit has stable and volatile code, and no unit was joined to another. -/
theorem exists_holds_two_mimic : mimic.WellNamed ∧ ∃ r c,
    mimic.collect {} { enabled := true } 40 = some r ∧ r.outcome = .ok c ∧
      (∃ u ∈ c.place mimic, c.Holds mimic u .stable ∧ c.Holds mimic u .volatile) ∧
        ∀ config', c.bucketCount ≤ config'.units → ∃ units,
          c.partition mimic config' = .ok units ∧
            ∃ u ∈ units, u.Holds mimic .stable ∧ u.Holds mimic .volatile := by
  obtain ⟨r, c, hr, hc, hmem⟩ := exists_collection_mimic
  have hwell : mimic.WellNamed := wellNamed_of_all (by decide +kernel) (by decide +kernel)
  have hbucket : ∀ inst, c.contains inst = true →
      ∃ i, c.bucket? i = bucketOf? (mimic.info inst) inst.what := by
    intro inst hinst
    obtain ⟨m, hm, rfl⟩ := Collection.contains_iff.1 hinst
    obtain ⟨i, hi⟩ := List.mem_iff_getElem?.1 hm
    exact ⟨i, bucket?_of_collect hr hc hi⟩
  obtain ⟨i, hi⟩ := hbucket _ (hmem _ List.mem_cons_self)
  obtain ⟨j, hj⟩ := hbucket _ (hmem _ (List.mem_cons_of_mem _ List.mem_cons_self))
  -- The region's name has the mark of volatile units as its last segment.
  have hname : mimic.unitName (.stable 2) = mimic.unitName (.volatile (some 1)) := by
    decide +kernel
  have hplace := (exists_holds_place_iff hr hc).2
    ⟨i, j, .stable 2, .volatile (some 1), hi, hj, rfl, rfl, hname⟩
  refine ⟨hwell, r, c, hr, hc, hplace, fun config' hcount => ?_⟩
  obtain ⟨units, hunits, hholds⟩ := exists_partition_holds_iff hcount
  exact ⟨units, hunits, (hholds _ _).2 hplace⟩

end Program

end Monomorph
