import Monomorph.Proofs.Joining
import Monomorph.Proofs.Neighbors

/-!
# Names of units

At first a unit is called by words with a hyphen between neighbours; a unit that was joined has the
names of its parts with two hyphens in between. No word is empty, so two hyphens side by side are
always the mark between two parts, and what a unit was made of can be read off its name
(`Text.nameParts_intercalate`). Each of the units at first went into one unit, so no two units have
one name (`Collection.partition_namesApart`).
-/

namespace Monomorph

/-! ## Texts cut at hyphens -/

namespace Text

/-- Whether a text can stand between marks: it is not empty and has none of the marks that paths and
    names of units are put together with. -/
def IsWord (w : List Char) : Prop := w ≠ [] ∧ ∀ c ∈ w, c ≠ '-' ∧ c ≠ '.' ∧ c ≠ ':'

/-- Identifiers are words. -/
theorem isWord_of_isPlain {w : List Char} (hne : w ≠ [])
    (h : ∀ c ∈ w, Symbol.isPlain c = true) : IsWord w := by
  refine ⟨hne, fun c hc => ⟨?_, ?_, ?_⟩⟩
  all_goals
    rintro rfl
    exact absurd (h _ hc) (by decide)

/-- A word has no hyphens. -/
theorem IsWord.hyphen_notMem {w : List Char} (h : IsWord w) : '-' ∉ w :=
  fun hc => (h.2 _ hc).1 rfl

/-- Joining segments is putting the separator in between. -/
theorem joinSegments_eq_intercalate (sep : List Char) (ss : List (List Char)) :
    joinSegments sep ss = sep.intercalate ss := by
  induction ss with
  | nil => rfl
  | cons s ss ih =>
    -- no separator stands behind the last segment
    cases ss with
    | nil => simp [joinSegments]
    | cons t ts =>
      rw [List.intercalate_cons_cons, ← ih, joinSegments]
      exact List.cons_ne_nil t ts

section Lists

variable {α : Type}

/-- Between two rows that are joined stands one more separator. -/
theorem intercalate_append {sep : List α} {xss yss : List (List α)} (hx : xss ≠ [])
    (hy : yss ≠ []) :
    sep.intercalate (xss ++ yss) = sep.intercalate xss ++ sep ++ sep.intercalate yss := by
  induction xss with
  | nil => exact absurd rfl hx
  | cons xs xss ih =>
    -- the last segment of the first list meets the first one of the second
    cases xss with
    | nil => simp [List.intercalate_cons_of_ne_nil hy]
    | cons xs' xss =>
      rw [List.cons_append, List.intercalate_cons_of_ne_nil (by simp),
        ih (List.cons_ne_nil xs' xss), List.intercalate_cons_cons]
      simp

/-- What is put together has the characters of its parts and of the separator. -/
theorem mem_intercalate {sep : List α} {xss : List (List α)} {x : α}
    (h : x ∈ sep.intercalate xss) : x ∈ sep ∨ ∃ xs ∈ xss, x ∈ xs := by
  induction xss with
  | nil => exact absurd h List.not_mem_nil
  | cons xs xss ih =>
    cases xss with
    | nil => exact .inr ⟨xs, List.mem_cons_self, by simpa using h⟩
    | cons ys xss =>
      rw [List.intercalate_cons_cons, List.mem_append, List.mem_append] at h
      rcases h with (h | h) | h
      · exact .inr ⟨xs, List.mem_cons_self, h⟩
      · exact .inl h
      · exact (ih h).imp_right fun ⟨zs, hzs, hx⟩ => ⟨zs, List.mem_cons_of_mem _ hzs, hx⟩

/-- Parts that are not empty make up something. -/
-- what is first is not empty, so neither is the whole
theorem intercalate_ne_nil {sep : List α} {xss : List (List α)} (hne : xss ≠ [])
    (h : ∀ xs ∈ xss, xs ≠ []) : sep.intercalate xss ≠ [] := by
  cases xss with
  | nil => exact absurd rfl hne
  | cons xs xss =>
    have hxs := h xs List.mem_cons_self
    cases xss with
    | nil => simpa using hxs
    | cons ys xss => simp [List.intercalate_cons_cons, hxs]

/-- What stands in front can as well be put to the first part. -/
theorem append_intercalate_cons (sep l xs : List α) (xss : List (List α)) :
    l ++ sep.intercalate (xs :: xss) = sep.intercalate ((l ++ xs) :: xss) := by
  cases xss with
  | nil => simp
  | cons xs' xss => simp [List.intercalate_cons_cons]

/-- A mark set twice between texts that are themselves put together with it is the mark set once
    where an empty part is put in between. -/
theorem intercalate_twice (a : α) (xsss : List (List (List α))) (h : ∀ xss ∈ xsss, xss ≠ []) :
    [a, a].intercalate (xsss.map [a].intercalate) = [a].intercalate ([[]].intercalate xsss) := by
  induction xsss with
  | nil => rfl
  | cons xss xsss ih =>
    rcases List.forall_mem_cons.1 h with ⟨hxss, hrest⟩
    cases xsss with
    | nil => simp
    | cons yss xsss =>
      -- What the rest comes to is not empty, so one more pair of hyphens stands in front of it.
      have hne : [[]].intercalate (yss :: xsss) ≠ [] :=
        intercalate_ne_nil (List.cons_ne_nil _ _) hrest
      rw [List.map_cons, List.intercalate_cons_of_ne_nil (by simp), ih hrest,
        List.intercalate_cons_cons, intercalate_append (by simp) hne,
        intercalate_append hxss (List.cons_ne_nil _ _)]
      simp

/-- The parts of a split do not have what it is split at. -/
theorem notMem_of_mem_splitOn [DecidableEq α] {a : α} {xs w : List α} (h : w ∈ xs.splitOn a) :
    a ∉ w := by
  induction xs generalizing w with
  | nil =>
    rw [List.splitOn_nil, List.mem_singleton] at h
    rw [h]
    exact List.not_mem_nil
  | cons x xs ih =>
    rw [List.splitOn_cons_eq_if_modifyHead] at h
    -- Where the first element is the separator an empty part is put in front; elsewhere it joins
    -- the first part.
    split at h
    · rcases List.mem_cons.1 h with rfl | h
      · exact List.not_mem_nil
      · exact ih h
    · next hx =>
      obtain ⟨v, vs, hsplit⟩ := List.exists_cons_of_ne_nil (List.splitOn_ne_nil a xs)
      rw [hsplit, List.modifyHead_cons] at h
      rw [hsplit] at ih
      rcases List.mem_cons.1 h with rfl | h
      · rw [List.mem_cons, not_or]
        exact ⟨fun he => hx (by simp [he]), ih List.mem_cons_self⟩
      · exact ih (List.mem_cons_of_mem _ h)

end Lists

/-- Whether a text has a hyphen neither at an end nor beside another one. -/
def HyphensApart (cs : List Char) : Prop := [] ∉ cs.splitOn '-'

/-- The parts of a name that have two hyphens between them, each cut at its hyphens. -/
def nameParts (name : List Char) : List (List (List Char)) := (name.splitOn '-').splitOn []

/-- What was put together with two hyphens can be read back. -/
theorem nameParts_intercalate {css : List (List Char)} (hne : css ≠ [])
    (h : ∀ cs ∈ css, HyphensApart cs) :
    nameParts (['-', '-'].intercalate css) = css.map (List.splitOn '-') := by
  have hback : css = (css.map (List.splitOn '-')).map ['-'].intercalate := by
    rw [List.map_map]
    exact (List.map_id'' (fun _ => List.intercalate_splitOn '-') css).symm
  have hparts : ∀ ws ∈ css.map (List.splitOn '-'), ws ≠ [] ∧ [] ∉ ws ∧ ∀ w ∈ ws, '-' ∉ w := by
    intro ws hws
    obtain ⟨cs, hcs, rfl⟩ := List.mem_map.1 hws
    exact ⟨List.splitOn_ne_nil '-' cs, h cs hcs, fun w => notMem_of_mem_splitOn⟩
  have hne' : css.map (List.splitOn '-') ≠ [] := by simpa using hne
  generalize css.map (List.splitOn '-') = wss at hback hparts hne'
  -- Two hyphens are two cuts with nothing in between, which is where the second split finds the
  -- parts.
  rw [hback, nameParts, intercalate_twice _ _ fun ws hws => (hparts ws hws).1,
    List.splitOn_intercalate, List.splitOn_intercalate [] (fun ws hws => (hparts ws hws).2.1) hne']
  · intro w hw
    rcases mem_intercalate hw with hw | ⟨ws, hws, hw⟩
    · rw [List.mem_singleton.1 hw]
      exact List.not_mem_nil
    · exact (hparts ws hws).2.2 w hw
  · exact intercalate_ne_nil hne' fun ws hws => (hparts ws hws).1

end Text

/-! ## Names of units at first -/

/-- Whether crates are called by words and regions by paths of words. -/
structure Program.WellNamed (p : Program) : Prop where
  crate : ∀ name ∈ p.crates, Text.IsWord name.toList
  region : ∀ name ∈ p.regions, ∀ w ∈ Text.segments name.toList, Text.IsWord w

namespace Program

variable {p : Program}

variable (p) in
/-- The words of the name of a bucket's unit, those of the crate's name left out. -/
def bucketWords : Bucket → List (List Char)
  | .stable r => Text.segments (p.regionName r).toList
  | .volatile (some r) => Text.segments (p.regionName r).toList ++ ["volatile".toList]
  | .volatile none => ["fallback".toList, "volatile".toList]
  | .externInline => ["extern".toList, "inline".toList]
  | .externGeneric c => ["extern".toList, "generic.".toList ++ (p.crateName c).toList]

/-- A unit is called by the crate's name, a point and the words of its bucket. -/
theorem toList_unitName (b : Bucket) : (p.unitName b).toList =
    p.localName.toList ++ '.' :: ['-'].intercalate (p.bucketWords b) := by
  have hregion : ∀ r, (p.regionLabel r).toList =
      ['-'].intercalate (Text.segments (p.regionName r).toList) := by
    intro r
    rw [regionLabel, String.toList_ofList, Text.replaceColons, Text.joinSegments_eq_intercalate]
  have hdot : ".".toList = ['.'] := rfl
  unfold unitName
  rw [String.toList_append, String.toList_append, hdot, List.append_assoc, List.singleton_append]
  -- The crate's name and the point are common, and what is behind them is put together bucket by
  -- bucket.
  congr 2
  cases b with
  | stable r => exact hregion r
  | volatile r =>
    cases r with
    | none =>
      rw [bucketWords, List.intercalate_cons_cons, List.intercalate_singleton]
      simp
    | some r =>
      rw [String.toList_append, hregion, bucketWords,
        Text.intercalate_append (Text.segments_ne_nil _) (List.cons_ne_nil _ _)]
      simp
  | externInline =>
    rw [bucketWords, List.intercalate_cons_cons, List.intercalate_singleton]
    simp
  | externGeneric c =>
    rw [String.toList_append, bucketWords, List.intercalate_cons_cons, List.intercalate_singleton]
    rfl

/-- The name of a crate has no hyphen. -/
theorem WellNamed.hyphen_notMem_crateName (h : p.WellNamed) (c : CrateId) :
    '-' ∉ (p.crateName c).toList := by
  unfold crateName
  cases hc : p.crates[c]? with
  | none => exact List.not_mem_nil
  | some name => exact (h.crate name (List.mem_of_getElem? hc)).hyphen_notMem

/-- The name of a region is one of the program's, or empty if there is no such region. -/
theorem regionName_mem_or (r : RegionId) : p.regionName r ∈ p.regions ∨ p.regionName r = "" := by
  unfold regionName
  cases hr : p.regions[r]? with
  | none => exact .inr rfl
  | some name => exact .inl (List.mem_of_getElem? hr)

/-- A region is called by words, or by nothing where it is not declared. -/
theorem WellNamed.regionName_cases (h : p.WellNamed) (r : RegionId) :
    (∀ w ∈ Text.segments (p.regionName r).toList, Text.IsWord w) ∨ p.regionName r = "" :=
  (regionName_mem_or r).imp_left (h.region _)

/-- No mark stands in a segment of a region's path. -/
theorem WellNamed.ne_marks (h : p.WellNamed) {r : RegionId} {w : List Char}
    (hw : w ∈ Text.segments (p.regionName r).toList) : ∀ c ∈ w, c ≠ '-' ∧ c ≠ '.' ∧ c ≠ ':' := by
  rcases h.regionName_cases r with hr | hr
  · exact (hr w hw).2
  · rw [hr] at hw
    obtain rfl := List.mem_singleton.1 hw
    exact fun c hc => absurd hc List.not_mem_nil

/-- No word of a bucket's name has a hyphen, and only the first one can be empty. -/
theorem WellNamed.exists_bucketWords (h : p.WellNamed) (b : Bucket) : ∃ w ws,
    p.bucketWords b = w :: ws ∧ '-' ∉ w ∧ ∀ w ∈ ws, w ≠ [] ∧ '-' ∉ w := by
  have hregion : ∀ r, ∃ w ws, Text.segments (p.regionName r).toList = w :: ws ∧ '-' ∉ w ∧
      ∀ w ∈ ws, w ≠ [] ∧ '-' ∉ w := by
    intro r
    obtain ⟨w, ws, hw⟩ := List.exists_cons_of_ne_nil (Text.segments_ne_nil (p.regionName r).toList)
    refine ⟨w, ws, hw, ?_⟩
    rcases h.regionName_cases r with hr | hr
    · rw [hw, List.forall_mem_cons] at hr
      exact ⟨hr.1.hyphen_notMem, fun w hw => ⟨(hr.2 w hw).1, (hr.2 w hw).hyphen_notMem⟩⟩
    · rw [hr] at hw
      obtain ⟨rfl, rfl⟩ := List.cons.inj hw
      simp
  -- Regions are called by their words and maybe a mark behind them; the other buckets have fixed
  -- words.
  cases b with
  | stable r => exact hregion r
  | volatile r =>
    cases r with
    | none => exact ⟨_, _, rfl, by decide, by decide⟩
    | some r =>
      obtain ⟨w, ws, hw, hhyphen, hws⟩ := hregion r
      refine ⟨w, ws ++ ["volatile".toList], by rw [bucketWords, hw, List.cons_append], hhyphen, ?_⟩
      intro v hv
      rcases List.mem_append.1 hv with hv | hv
      · exact hws v hv
      · rw [List.mem_singleton.1 hv]
        decide
  | externInline => exact ⟨_, _, rfl, by decide, by decide⟩
  | externGeneric c =>
    refine ⟨_, _, rfl, by decide, List.forall_mem_singleton.2 ⟨by simp, ?_⟩⟩
    rw [List.mem_append, not_or]
    exact ⟨by decide, h.hyphen_notMem_crateName c⟩

/-- The name of a bucket's unit, cut at the hyphens. -/
theorem WellNamed.splitOn_unitName (h : p.WellNamed) (b : Bucket) : ∃ w ws,
    p.bucketWords b = w :: ws ∧
      (p.unitName b).toList.splitOn '-' = (p.localName.toList ++ '.' :: w) :: ws := by
  obtain ⟨w, ws, hwords, hw, hws⟩ := h.exists_bucketWords b
  refine ⟨w, ws, hwords, ?_⟩
  have hname : (p.unitName b).toList =
      ['-'].intercalate ((p.localName.toList ++ '.' :: w) :: ws) := by
    rw [toList_unitName, hwords, ← List.singleton_append, ← List.append_assoc,
      Text.append_intercalate_cons]
    simp
  rw [hname, List.splitOn_intercalate _ _ (List.cons_ne_nil _ _)]
  -- No part has a hyphen: neither the crate's name, nor the first word, nor the others.
  intro v hv
  rcases List.mem_cons.1 hv with rfl | hv
  · have hlocal := h.hyphen_notMem_crateName localCrate
    simp [hw, localName, hlocal]
  · exact (hws v hv).2

/-- A unit's name has no two hyphens in a row, nor one at its end. -/
theorem WellNamed.hyphensApart (h : p.WellNamed) (b : Bucket) :
    Text.HyphensApart (p.unitName b).toList := by
  obtain ⟨w, ws, hwords, -, hws⟩ := h.exists_bucketWords b
  obtain ⟨w', ws', hwords', hsplit⟩ := h.splitOn_unitName b
  obtain ⟨rfl, rfl⟩ := List.cons.inj (hwords.symm.trans hwords')
  rw [Text.HyphensApart, hsplit, List.mem_cons, not_or]
  exact ⟨by simp, fun hmem => (hws [] hmem).1 rfl⟩

end Program

/-! ## Names of clusters -/

namespace Cluster

/-- The name of joined units is put together from their names. -/
theorem toList_name_unit (g : Cluster) :
    g.unit.name.toList = ['-', '-'].intercalate (g.plans.map fun u => u.name.toList) := by
  obtain ⟨first, rest⟩ := g
  show (rest.foldl Plan.absorb first).name.toList =
    ['-', '-'].intercalate ((first :: rest).map fun u => u.name.toList)
  -- one plan after the other is joined, and its name comes behind two hyphens
  induction rest generalizing first with
  | nil => simp
  | cons u rest ih =>
    have hname : (first.absorb u).name.toList =
        (first.name.toList ++ ['-', '-']) ++ u.name.toList := by
      simp [Plan.absorb]
    rw [List.foldl_cons, ih, List.map_cons, hname, ← Text.append_intercalate_cons, List.map_cons,
      List.map_cons, List.intercalate_cons_cons]

/-- The names that a cluster was joined from can be read off its own name. -/
theorem nameParts_unit {g : Cluster} (h : ∀ u ∈ g.plans, Text.HyphensApart u.name.toList) :
    Text.nameParts g.unit.name.toList = g.plans.map fun u => u.name.toList.splitOn '-' := by
  have hne : g.plans.map (fun u => u.name.toList) ≠ [] := List.cons_ne_nil _ _
  rw [toList_name_unit, Text.nameParts_intercalate hne (List.forall_mem_map.2 h), List.map_map]
  rfl

/-- Clusters of units with different names have different names. -/
theorem nodup_names {gs : List Cluster}
    (hapart : ∀ u ∈ gs.flatMap plans, Text.HyphensApart u.name.toList)
    (hnodup : ((gs.flatMap plans).map Plan.name).Nodup) :
    ((gs.map unit).map Plan.name).Nodup := by
  rw [List.map_flatMap, List.nodup_flatMap] at hnodup
  rw [List.map_map, List.Nodup, List.pairwise_map]
  apply hnodup.2.imp_of_mem
  intro g k hg hk hdisjoint hname
  -- the first of the units that one cluster was joined from would be among those of the other
  have hparts : g.plans.map (fun u => u.name.toList.splitOn '-') =
      k.plans.map fun u => u.name.toList.splitOn '-' := by
    rw [← nameParts_unit fun u hu => hapart u (List.mem_flatMap.2 ⟨g, hg, hu⟩),
      ← nameParts_unit fun u hu => hapart u (List.mem_flatMap.2 ⟨k, hk, hu⟩)]
    exact congrArg (fun name => Text.nameParts name.toList) hname
  have hfirst : g.first.name.toList.splitOn '-' = k.first.name.toList.splitOn '-' :=
    (List.cons.inj hparts).1
  have hnames : g.first.name = k.first.name := by
    apply String.toList_inj.1
    calc g.first.name.toList
        = ['-'].intercalate (g.first.name.toList.splitOn '-') :=
          (List.intercalate_splitOn '-').symm
      _ = k.first.name.toList := by rw [hfirst, List.intercalate_splitOn]
  exact hdisjoint (List.mem_map_of_mem List.mem_cons_self)
    (hnames ▸ List.mem_map_of_mem List.mem_cons_self)

end Cluster

/-! ## Names of the units of a collection -/

namespace Collection

variable {p : Program} {c : Collection}

/-- Units that nodes are placed in may stand in any order. -/
theorem Placed.perm {ids : List NodeId} {us us' : List Plan} (h : c.Placed p ids us)
    (hperm : us'.Perm us) : c.Placed p ids us' where
  nodes := (hperm.flatMap_right _).trans h.nodes
  names := (hperm.map _).symm.nodup h.names
  named := fun u hu => h.named u (hperm.mem_iff.1 hu)
  once := fun u hu => h.once u (hperm.mem_iff.1 hu)
  nonempty := fun u hu => h.nonempty u (hperm.mem_iff.1 hu)
  bucket := fun u hu => h.bucket u (hperm.mem_iff.1 hu)

variable (p c) in
/-- Placement places all nodes. -/
theorem placed_place : c.Placed p c.graph.ids (c.place p) :=
  ((@placed_nil p c).foldl c.graph.ids).perm (List.mergeSort_perm _ _)

/-- A unit that nodes are placed in has the name of a bucket. -/
theorem exists_unitName {u : Plan} (hu : u ∈ c.place p) : ∃ b, p.unitName b = u.name := by
  have hplaced := placed_place p c
  obtain ⟨i, hi⟩ := List.exists_mem_of_ne_nil _ (hplaced.nonempty u hu)
  obtain ⟨b, hb, -⟩ := hplaced.bucket u hu i hi
  exact ⟨b, hplaced.named u hu b hb⟩

/-- However often units are joined, no two of them have one name. -/
theorem nodup_names_joinTimes (hp : p.WellNamed) (n : Nat) :
    ((Plan.joinTimes n (c.place p)).map Plan.name).Nodup := by
  obtain ⟨gs, hunits, hplans, -⟩ := Plan.exists_clusters n (c.place p)
  rw [hunits]
  -- each cluster is named after the plans in it, and no plan is in two
  apply Cluster.nodup_names
  · intro u hu
    obtain ⟨b, hb⟩ := exists_unitName (hplans.mem_iff.1 hu)
    rw [← hb]
    exact hp.hyphensApart b
  · exact (hplans.map _).symm.nodup (placed_place p c).names

/-- Under readable names no two units that a collection is cut into have one name, and so it is at
    every step of joining them. -/
theorem partition_namesApart (hp : p.WellNamed) (c : Collection) {config : Config}
    (hreadable : config.readableNames = true) :
    (∃ units, c.partition p config = .ok units ∧ (units.map CodegenUnit.name).Nodup) ∧
      ∀ n, ((Plan.joinTimes n (c.place p)).map Plan.name).Nodup := by
  refine ⟨⟨_, partition_eq_ok_iff.2 rfl, ?_⟩, nodup_names_joinTimes hp⟩
  -- Sorting the finished units and numbering them keeps their names.
  have hnames : ((c.plans p config).mapIdx
      (c.unitOf p config.readableNames (c.plans p config))).map CodegenUnit.name =
        (c.plans p config).map Plan.name := by
    rw [List.mapIdx_eq_zipIdx_map, List.map_map]
    conv => rhs; rw [← List.zipIdx_map_fst 0 (c.plans p config), List.map_map]
    refine List.map_congr_left fun x _ => ?_
    simp [unitOf, hreadable]
  rw [((List.mergeSort_perm _ _).map CodegenUnit.name).nodup_iff, hnames]
  exact nodup_names_joinTimes hp _

end Collection

namespace Program

/-- A program in a module of a module, with a generic function in the outer one and two functions
    of another crate, one to be copied and one generic. -/
def harbor : Program where
  crates := ["app", "core"]
  crateRegions := [0, 1]
  regions := ["app", "core", "net", "net::http"]
  items := #[
    { name := "main", path := "main", kind := .fn, region := 3
      body := some { ops := [
        { action := .call .direct 1 [.ty (.prim .u8)] },
        { action := .call .direct 2 [] },
        { action := .call .direct 3 [.ty (.prim .u8)] }] } },
    { name := "fetch", path := "fetch", kind := .fn, region := 2
      generics := { params := [⟨"T", .type⟩] }
      body := some { ops := [{ action := .use (.param 0) }] } },
    { name := "clamp", path := "clamp", kind := .fn, region := 1
      provenance := { origin := 1, inlinable := true }, body := some {} },
    { name := "swap", path := "swap", kind := .fn, region := 1
      provenance := { origin := 1 }, generics := { params := [⟨"T", .type⟩] }
      body := some { ops := [{ action := .use (.param 0) }] } }]
  entries := [0]

/-- Names that are seen to be made of letters, digits and underscores are good ones. -/
theorem wellNamed_of_all {p : Program}
    (hcrates : (p.crates.all fun name =>
      !name.toList.isEmpty && name.toList.all Symbol.isPlain) = true)
    (hregions : (p.regions.all fun name => (Text.segments name.toList).all fun w =>
      !w.isEmpty && w.all Symbol.isPlain) = true) : p.WellNamed := by
  simp only [Bool.and_eq_true, List.all_eq_true, Bool.not_eq_true',
    List.isEmpty_eq_false_iff] at hcrates hregions
  constructor
  · intro name hname
    exact Text.isWord_of_isPlain (hcrates name hname).1 (hcrates name hname).2
  · intro name hname w hw
    exact Text.isWord_of_isPlain (hregions name hname w hw).1 (hregions name hname w hw).2

/-- The names in the program are words. -/
theorem wellNamed_harbor : harbor.WellNamed :=
  wellNamed_of_all (by decide +kernel) (by decide +kernel)

/-- All four instances are collected. -/
theorem exists_collection_harbor : ∃ r c,
    harbor.collect {} { enabled := true } 40 = some r ∧ r.outcome = .ok c ∧
      ∀ inst ∈ [⟨.item 0, []⟩, ⟨.item 1, [.ty (.prim .u8)]⟩, ⟨.item 2, []⟩,
        ⟨.item 3, [.ty (.prim .u8)]⟩], c.contains inst = true :=
  exists_collection (by decide +kernel)

/-- What is collected for that program is cut into units with different names where two are
    wanted. -/
theorem partition_namesApart_harbor : harbor.WellNamed ∧ ∃ r c,
    harbor.collect {} { enabled := true } 40 = some r ∧ r.outcome = .ok c ∧
      (∃ units, c.partition harbor { units := 2 } = .ok units ∧
        (units.map CodegenUnit.name).Nodup) ∧
        ∀ n, ((Plan.joinTimes n (c.place harbor)).map Plan.name).Nodup := by
  obtain ⟨r, c, hr, hc, -⟩ := exists_collection_harbor
  exact ⟨wellNamed_harbor, r, c, hr, hc,
    Collection.partition_namesApart wellNamed_harbor c rfl⟩

end Program

end Monomorph
