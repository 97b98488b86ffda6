import Monomorph.Proofs.Linkage

/-!
# Where uses come from

The uses of a collected instance for which code is generated are the neighbors that its scan
returned, each in its way (`Program.exists_scan_of_collect`); so whatever such an instance needs is
collected and used by it. What needs no look at classified types holds of every program
(`Program.exists_finds_of_collect`); whether glue is needed is settled by the true answer where no
type lies inside itself by value (`Program.glue_of_collect`).
-/

namespace Monomorph

/-- The body that the program has for an instance. -/
def Program.bodyOf? (p : Program) (inst : Instance) : Option Body :=
  match inst.what with
  | .item i | .static i => (p.item i).body
  | .dropGlue | .vtableShim _ => none

/-- An instance has a body if it is one of a function or of a static that has one. -/
theorem Program.bodyOf?_eq_some_iff {p : Program} {inst : Instance} {b : Body} :
    p.bodyOf? inst = some b ↔
      ∃ i, (inst.what = .item i ∨ inst.what = .static i) ∧ (p.item i).body = some b := by
  unfold bodyOf?
  cases inst.what with
  | item i => simp
  | static i => simp
  | dropGlue => simp
  | vtableShim i => simp

namespace Collection

variable {c : Collection} {x y : Instance} {kind : UseKind}

/-- Whether code is generated for a collected instance, and `b` is the body in the program. -/
structure Generates (p : Program) (c : Collection) (inst : Instance) (b : Body) : Prop where
  contains : c.contains inst = true
  generated : (p.info inst).isGenerated = true
  body : p.bodyOf? inst = some b

/-- What is used is collected. -/
theorem Uses.contains (h : c.Uses x y kind) : c.contains y = true := by
  obtain ⟨_, _, _, t, -, -, -, ht, rfl, -⟩ := h
  exact contains_iff.2 ⟨t, List.mem_of_getElem? ht, rfl⟩

end Collection

/-! ## Scans of collected instances -/

namespace Program

open Needs

variable {p : Program} {config : Config} {a : Analyzer} {fuel : Nat} {r : CollectResult}
  {c : Collection} {inst : Instance}

/-- A generated instance uses exactly the neighbors that its scan returned. -/
theorem exists_scan_of_collect {M : DropMemo → Prop} (hM : p.Preserves M) (hempty : M {})
    (h : p.collect config a fuel = some r) (hc : r.outcome = .ok c)
    (hinst : c.contains inst = true) (hgen : (p.info inst).isGenerated = true) :
    ∃ ns, p.ScansFrom (a.unused p) M inst ns ∧
      ∀ y kind, c.Uses inst y kind ↔ ∃ n ∈ ns, n.inst = y ∧ n.kind = kind := by
  obtain ⟨w, hrun, rfl⟩ := collect_eq_some_iff.1 h
  obtain ⟨hmoves, hdone⟩ := Walk.moves_of_run hrun
  have hinv := (inv_startWalk hempty (a.unused p)).reach hM hmoves
  obtain ⟨-, herrors, -, -⟩ := Walk.finish_eq_ok_iff.1 hc
  obtain ⟨m, hm, rfl⟩ := Collection.contains_iff.1 hinst
  obtain ⟨s, hs, rfl⟩ := (Walk.mem_members_finish hc).1 hm
  have hkept := hinv.kept s hs
  cases hkept with
  | linked hgen' => exact absurd (hgen'.symm.trans hgen) Bool.false_ne_true
  | broken _ _ he =>
    rw [herrors] at he
    exact absurd he List.not_mem_nil
  | @scanned inst ns _ hscan =>
    refine ⟨ns, hscan, fun y kind => ?_⟩
    rw [Walk.uses_finish_iff hinv hdone hc]
    constructor
    · intro ⟨s', hs', he, hu⟩
      -- the instance was recorded once
      obtain rfl := List.inj_on_of_nodup_map hinv.nodup hs' hs he
      obtain ⟨n, hn, he⟩ := List.mem_map.1 hu
      obtain ⟨rfl, rfl⟩ := Prod.mk.inj he
      exact ⟨n, hn, rfl, rfl⟩
    · intro ⟨n, hn, hy, hkind⟩
      subst hy hkind
      exact ⟨_, hs, rfl, List.mem_map.2 ⟨n, hn, rfl⟩⟩

/-- What a generated instance needs in any case is used by it, and so is collected. -/
theorem exists_finds_of_collect (h : p.collect config a fuel = some r) (hc : r.outcome = .ok c)
    (hinst : c.contains inst = true) (hgen : (p.info inst).isGenerated = true) :
    ∃ needs, (p.needs (a.unused p) inst).Finds needs ∧
      ∀ n, .use n ∈ needs → c.Uses inst n.inst n.kind := by
  obtain ⟨ns, ⟨hfail, _, _, _, -, hsettle⟩, huses⟩ :=
    exists_scan_of_collect preserves_true trivial h hc hinst hgen
  exact ⟨_, finds_found hfail, fun n hn =>
    (huses _ _).2 ⟨n, (sifts_of_settle hsettle).of_use hn, rfl, rfl⟩⟩

/-- The glue that a generated instance asks for is used by it if the type needs drop. -/
theorem glue_of_collect (hacyclic : p.ByValueAcyclic) (h : p.collect config a fuel = some r)
    (hc : r.outcome = .ok c) (hinst : c.contains inst = true)
    (hgen : (p.info inst).isGenerated = true) {needs : List Need}
    (hneeds : (p.needs (a.unused p) inst).Finds needs) {t : Ty} {kind : UseKind} {span : Span}
    (hneed : .glue t kind span ∈ needs) : (∃ i, t = .dyn i) ∨ p.Drops t false ∨
      p.Drops t true ∧ c.Uses inst (.glue t) kind := by
  obtain ⟨ns, hscan, huses⟩ := exists_scan_of_collect (preserves_sound hacyclic)
    DropMemo.sound_empty h hc hinst hgen
  obtain ⟨hfail, hsettles⟩ := (scansFrom_sound_iff hacyclic).1 hscan
  obtain rfl := hneeds.inj (finds_found hfail)
  refine (hsettles.glue_cases hneed).imp_right (.imp_right (.imp_right fun hn => ?_))
  exact (huses _ _).2 ⟨_, hn, rfl, rfl⟩

/-- What the body of a generated instance needs is what the instance needs. -/
theorem exists_bodyFinds_of_collect (h : p.collect config a fuel = some r)
    (hc : r.outcome = .ok c) {b : Body} (hb : c.Generates p inst b) :
    ∃ i needs, (p.bodyNeeds (a.unused p) i inst.args b).Finds needs ∧
      (p.needs (a.unused p) inst).Finds needs ∧
        ∀ n, .use n ∈ needs → c.Uses inst n.inst n.kind := by
  obtain ⟨needs, hneeds, huses⟩ := exists_finds_of_collect h hc hb.contains hb.generated
  obtain ⟨i, hwhat, hbody⟩ := bodyOf?_eq_some_iff.1 hb.body
  obtain ⟨b', hb', hfinds⟩ := (finds_item hwhat).1 hneeds
  obtain rfl := Option.some.inj (hbody.symm.trans hb')
  exact ⟨i, needs, hfinds, hneeds, huses⟩

/-! ## A collection with uses of every kind -/

/-- A program with a trait, a type with a drop method that implements it, a chain of such values
    and a generic function that drops a pair with a chain in it. -/
def gallery : Program where
  crates := ["app"]
  crateRegions := [0]
  regions := ["app"]
  items := #[
    { name := "main", path := "main", kind := .fn
      body := some { ops := [
        { action := .call .direct 1 [.ty (.adt 6 [])] },
        { action := .call .pointer 3 [.ty (.adt 5 [])] },
        { action := .call .direct 3 [.ty (.dyn 2)] },
        { action := .unsize (.wrap (.ref .exclusive) (.wrap .box (.adt 5 [])))
            (.wrap (.raw .shared) (.wrap .box (.dyn 2))) }] } },
    { name := "hang", path := "hang", kind := .fn, generics := { params := [⟨"T", .type⟩] }
      body := some { ops := [
        { action := .drop (.tuple (.ofList [.prim .u8, .wrap .box (.param 0)])) }] } },
    { name := "Paint", path := "Paint", kind := .trait
      generics := { params := [⟨"Self", .type⟩] } },
    { name := "paint", path := "Paint::paint", kind := .traitMethod 2
      generics := { parent := some 2, inherited := 1, params := [⟨"Self", .type⟩] } },
    { name := "paint_on", path := "Paint::paint_on", kind := .traitMethod 2
      generics := { parent := some 2, inherited := 1,
                    params := [⟨"Self", .type⟩, ⟨"U", .type⟩] } },
    { name := "Frame", path := "Frame", kind := .adt [] },
    { name := "Wall", path := "Wall", kind := .adt [.wrap .box (.adt 6 []), .adt 5 []] },
    { name := "impl-Paint-0", path := "impl-Paint-0", kind := .impl 2 (.adt 5 []) },
    { name := "paint", path := "impl-Paint-0::paint", kind := .implMethod 3
      generics := { parent := some 7 }, body := some {} },
    { name := "drop", path := "Frame::drop", kind := .fn, body := some {} }]
  entries := [0]
  dropMethods := [(5, 9)]

/-- The fields of the gallery's types are types with nothing inside. -/
theorem flatFields_gallery : gallery.FlatFields := by
  intro i fields hkind f hf
  -- only two of the items are types
  match i with
  | 0 | 1 | 2 | 3 | 4 | 7 | 8 | 9 => exact nomatch hkind
  | 5 =>
    obtain rfl := ItemKind.adt.inj hkind
    exact nomatch hf
  | 6 =>
    obtain rfl := ItemKind.adt.inj hkind
    simp only [List.mem_cons, List.not_mem_nil, or_false] at hf
    obtain rfl | rfl := hf
    · exact .inr ⟨rfl, fun ps h => nomatch h⟩
    · exact .inr ⟨rfl, fun ps h => nomatch h⟩
  | i + 10 => exact nomatch hkind

/-- No type of the gallery lies inside itself by value. -/
theorem acyclic_gallery : gallery.ByValueAcyclic :=
  acyclic_of_wellFounded flatFields_gallery.wellFounded

/-- The method of the gallery's trait is the one its only impl provides. -/
theorem resolve_gallery : gallery.resolve 3 [.ty (.adt 5 [])] = .item 8 [] := by decide +kernel

/-- That program has a collection. -/
theorem exists_collection_gallery : ∃ r c,
    gallery.collect {} { enabled := true } 40 = some r ∧ r.outcome = .ok c ∧
      ∀ inst ∈ [⟨.item 0, []⟩, ⟨.item 1, [.ty (.adt 6 [])]⟩], c.contains inst = true :=
  exists_collection (by decide +kernel)

end Program

end Monomorph
