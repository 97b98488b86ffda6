import Monomorph.Proofs.Closed
import Monomorph.Proofs.Destructors
import Monomorph.Proofs.Retention
import Monomorph.Proofs.Transparency

/-!
# What glue is made of, and whether there is any

Whether a type needs drop and what its glue is made of are found by two walks over the layers of
types, and they do not treat all layers alike: an array without items is harmless but has an item
type, what lies in a box does not matter for the one and is dropped by the other, and the fields of
a type with a drop method are only looked at to make glue. Layer by layer the second walk follows
the first (`Program.glueCandidates_of_parts` and the lemmas beside it); so a type needs drop exactly
if its glue has something to call or the type leaves no choice (`Program.needsDrop_iff_calls`).

Which of the types inside are kept is up to the answers of the classifier. A type has one answer
only, so it does not matter when it is asked about (`Program.Judged`), and a type inside which no
type lies inside itself is judged by whether it needs drop. The others turn up only in a box, in an
array without items and in a type with a drop method.
-/

namespace Monomorph

/-- Whether glue made of these parts has anything to call. -/
def DropParts.Calls (parts : DropParts) : Prop :=
  parts.method.isSome = true ∨ parts.children ≠ []

namespace Ty

/-- The types that need drop as they stand: the memory of a box has to be freed, and what is behind
    the others is not known. -/
inductive Owner : Ty → Prop
  | box {t : Ty} : Owner (.wrap .box t)
  | object {i : ItemId} : Owner (.dyn i)
  | param {k : Nat} : Owner (.param k)

/-- An array type without items. -/
def IsEmptyArray (t : Ty) : Prop := ∃ u, t = .array u (.value 0)

variable {p : Program} {t : Ty}

/-- The layer of an owner always drops. -/
theorem Owner.dropShape (h : t.Owner) : p.dropShape t = .always := by
  cases h <;> rfl

/-- The layer of an empty array has nothing to drop. -/
theorem IsEmptyArray.dropShape (h : t.IsEmptyArray) : p.dropShape t = .trivial := by
  obtain ⟨u, rfl⟩ := h
  rfl

end Ty

namespace Program

variable {p : Program} {t u : Ty} {m m' : DropMemo} {b : Bool} {fuel : Nat}
  {cands : DropParts} {r : Except SubstError DropParts}

/-! ## Layer by layer -/

/-- Where parts are searched, glue is made of the same parts. -/
theorem glueCandidates_of_parts {ps : List DropPart} (h : p.dropShape t = .parts ps) :
    p.glueCandidates t = (fun us => { children := us }) <$> ps.mapM DropPart.ty := by
  cases hasParts_of_dropShape h with
  | @tuple ts =>
    -- what stands in the type can always be made
    have hparts : (ts.toList.map DropPart.inner).mapM DropPart.ty = .ok ts.toList := by
      rw [List.mapM_map]
      exact List.mapM_pure.trans (congrArg Except.ok (List.map_id _))
    rw [hparts]
    rfl
  | array => rfl
  | slice => rfl
  | fields hdrop hkind =>
    -- both walks put the same arguments into the same fields
    rw [List.mapM_map]
    simp only [glueCandidates, Ty.node, hdrop, hkind]
    rfl

/-- Where nothing is run, there is nothing to make glue of, but for the items that an array does not
    have. -/
theorem glueCandidates_of_trivial (h : p.dropShape t = .trivial) :
    t.IsEmptyArray ∨ p.glueCandidates t = .ok {} := by
  -- Only an array without items has nothing to drop and yet an item type to make glue of.
  cases t with
  | array v n =>
    by_cases hn : n = .value 0
    · exact .inl ⟨v, by rw [hn]⟩
    · simp [dropShape, Ty.node] at h
  | wrap w v =>
    cases w with
    | box => cases h
    | slice => cases h
    | _ => exact .inr rfl
  | nominal k i args =>
    cases k with
    | adt =>
      right
      simp only [dropShape, Ty.node] at h
      split at h
      · cases h
      · next hdrop =>
        have hnone : p.dropMethod? i = none := by simpa using hdrop
        split at h
        · cases h
        · simp only [glueCandidates, Ty.node, hnone]
          rfl
    | _ => exact .inr rfl
  | tuple ts => cases h
  | dyn i => cases h
  | param k => cases h
  | _ => exact .inr rfl

/-- What is run in any case is run by the type itself, or is the method that its glue begins
    with. -/
theorem method_of_always (h : p.dropShape t = .always) (hcands : p.glueCandidates t = .ok cands) :
    t.Owner ∨ cands.method.isSome = true := by
  cases dropsItself_of_always h with
  | box => exact .inl .box
  | object => exact .inl .object
  | param => exact .inl .param
  | method hmethod =>
    obtain ⟨method, hmethod⟩ := Option.isSome_iff_exists.1 hmethod
    exact .inr (by rw [method_of_glueCandidates hmethod hcands]; rfl)
  | broken hnone hkind =>
    -- without a method it is up to the fields
    exact absurd ((HasParts.fields hnone hkind).dropShape.symm.trans h) (by simp)

/-- The types inside that glue could be made of lie by value in the type, unless it has a drop
    method, owns what it points to, or has no items. -/
theorem byValue_of_candidate (hcands : p.glueCandidates t = .ok cands) (howner : ¬ t.Owner)
    (hempty : ¬ t.IsEmptyArray) (hmethod : cands.method.isSome = false) (hu : u ∈ cands.children) :
    p.ByValue t u := by
  -- What is always dropped without being an owner has a method, and then nothing is claimed of the
  -- parts.
  cases hshape : p.dropShape t with
  | trivial =>
    obtain h | h := glueCandidates_of_trivial hshape
    · exact absurd h hempty
    · obtain rfl := Except.ok.inj (h.symm.trans hcands)
      cases hu
  | always =>
    obtain h | h := method_of_always hshape hcands
    · exact absurd h howner
    · rw [hmethod] at h
      cases h
  | parts ps =>
    rw [glueCandidates_of_parts hshape, map_eq_ok_iff] at hcands
    obtain ⟨us, hus, rfl⟩ := hcands
    obtain ⟨part, hpart, hpu⟩ := forall₂_exists_left (mapM_eq_ok_iff.1 hus) hu
    exact byValue_of_part hshape hpart hpu

/-! ## Whether a type needs drop -/

/-- A type whose layer always drops needs drop. -/
theorem needsDrop_of_always (h : p.dropShape t = .always) : p.NeedsDrop t :=
  needsDrop_iff.2 (.inl (dropsItself_of_always h))

/-- A type whose layer has nothing to drop does not need drop. -/
theorem not_needsDrop_of_trivial (h : p.dropShape t = .trivial) : ¬ p.NeedsDrop t := by
  rw [needsDrop_iff]
  have hinside := inside_of_parts (p := p) (t := t) (Q := fun _ => False)
    (by simp [h]) (by simp [h])
  -- such a type neither drops itself nor has anything inside
  rintro (hself | ⟨u, hu, -⟩)
  · exact hinside.1 hself
  · exact hinside.2 u hu

/-- A type for which glue cannot be made needs drop. -/
theorem needsDrop_of_error {e : SubstError} (h : p.glueCandidates t = .error e) :
    p.NeedsDrop t := by
  cases hshape : p.dropShape t with
  | trivial =>
    obtain ⟨u, rfl⟩ | hnothing := glueCandidates_of_trivial hshape
    · cases h
    · cases hnothing.symm.trans h
  | always => exact needsDrop_of_always hshape
  | parts ps =>
    -- then one of the parts cannot be made
    rw [needsDrop_iff]
    left
    by_contra hself
    rw [glueCandidates_of_parts hshape] at h
    have hmade : ∀ part ∈ ps, ∃ u, part.ty = .ok u := by
      intro part hpart
      cases hpu : part.ty with
      | ok u => exact ⟨u, rfl⟩
      | error e => exact absurd (dropsItself_iff.2 (.inr ⟨ps, part, e, hshape, hpart, hpu⟩)) hself
    obtain ⟨us, hus⟩ := exists_mapM_eq_ok_iff.2 hmade
    rw [hus] at h
    cases h

/-- Of the other types those need drop that glue could be made of, with a method or a type inside
    that needs drop. -/
theorem needsDrop_iff_candidates (hcands : p.glueCandidates t = .ok cands) (howner : ¬ t.Owner) :
    p.NeedsDrop t ↔ ¬ t.IsEmptyArray ∧
      (cands.method.isSome = true ∨ ∃ u ∈ cands.children, p.NeedsDrop u) := by
  cases hshape : p.dropShape t with
  | trivial =>
    refine iff_of_false (not_needsDrop_of_trivial hshape) ?_
    rintro ⟨hitems, hcalls⟩
    obtain h | h := glueCandidates_of_trivial hshape
    · exact hitems h
    · obtain rfl := Except.ok.inj (h.symm.trans hcands)
      simp at hcalls
  | always =>
    refine iff_of_true (needsDrop_of_always hshape) ⟨fun h => ?_, .inl ?_⟩
    · -- an array without items has another shape
      exact absurd (h.dropShape.symm.trans hshape) (by simp)
    · exact (method_of_always hshape hcands).resolve_left howner
  | parts ps =>
    have hitems : ¬ t.IsEmptyArray := fun h => absurd (h.dropShape.symm.trans hshape) (by simp)
    rw [glueCandidates_of_parts hshape, map_eq_ok_iff] at hcands
    obtain ⟨us, hus, rfl⟩ := hcands
    have hmade := mapM_eq_ok_iff.1 hus
    -- all parts can be made, and they are what lies inside
    have hinside := inside_of_parts (p := p) (t := t) (Q := (· ∈ us)) (by simp [hshape]) (by
      intro ps' hshape' part hpart
      obtain rfl := DropShape.parts.inj (hshape.symm.trans hshape')
      obtain ⟨u, hu, hpu⟩ := forall₂_exists_right hmade hpart
      exact ⟨u, hpu, hu⟩)
    rw [needsDrop_iff]
    constructor
    · rintro (hself | ⟨u, hu, hneeds⟩)
      · exact absurd hself hinside.1
      · exact ⟨hitems, .inr ⟨u, hinside.2 u hu, hneeds⟩⟩
    · rintro ⟨-, hmethod | ⟨u, hu, hneeds⟩⟩
      · cases hmethod
      · obtain ⟨part, hpart, hpu⟩ := forall₂_exists_left hmade hu
        exact .inr ⟨u, byValue_of_part hshape hpart hpu, hneeds⟩

/-! ## The answers of the classifier -/

/-- A credible answer about a grounded type is right. -/
theorem Credible.iff (h : p.Credible t b) (hgrounded : p.Grounded t) :
    b = true ↔ p.NeedsDrop t := by
  cases b with
  | true => exact iff_of_true rfl h
  | false => exact iff_of_false Bool.false_ne_true (h hgrounded)

/-- What it means that a classifier judges a type in one way, before and after it has been asked
    what glue is made of. -/
structure Judged (p : Program) (m m' : DropMemo) (u : Ty) (b : Bool) : Prop where
  /-- Whoever asked before had this answer. -/
  before : ∀ {m₀ m₁ : DropMemo} {fuel : Nat} {c : Bool}, p.needsDrop fuel u m₀ = some (c, m₁) →
    m₁.Later p m → c = b
  /-- Whoever asks later has it at once. -/
  after : ∀ {m₁ : DropMemo} (fuel : Nat), m'.Later p m₁ →
    p.needsDrop (fuel + 1) u m₁ = some (b, m₁)
  /-- A type that is said to need drop does. -/
  sound : b = true → p.NeedsDrop u
  /-- One that is said not to does not if no type inside lies inside itself. -/
  grounded : p.Grounded u → (b = true ↔ p.NeedsDrop u)

/-- What is remembered is what was answered before and will be answered later. -/
theorem judged_of_answer? (hretains : m.Retains m') (hm' : m'.Asked p)
    (h : m'.answer? u = some b) : p.Judged m m' u b where
  before hasked hlater := by
    -- the answer that was given then is still remembered
    have hfirst := hretains.answer? (hlater.retains.answer? (answer?_of_needsDrop hasked))
    exact Option.some.inj (hfirst.symm.trans h)
  after fuel hlater := classify_of_answer? (hlater.retains.answer? h)
  sound := by
    rintro rfl
    exact (credible_of_asked hm').answer h
  grounded := ((credible_of_asked hm').answer h).iff

/-- What glue is made of are the types that are judged to need drop, and the method if there is
    one. -/
theorem judged_of_dropParts (hm : m.Asked p) {parts : DropParts}
    (h : p.dropParts fuel t m = some (.ok parts, m')) :
    ∃ cands, p.glueCandidates t = .ok cands ∧ parts.method = cands.method ∧
      ∃ answer : Ty → Bool, parts.children = cands.children.filter answer ∧
        ∀ u ∈ cands.children, p.Judged m m' u (answer u) := by
  obtain ⟨e, -, he, -⟩ | ⟨cands, kept, hcands, hkept, hr⟩ := dropParts_eq_some_iff.1 h
  · cases he
  · obtain rfl := Except.ok.inj hr
    obtain ⟨hretains, rfl, hanswers⟩ := keepParts_eq_some hkept
    -- The answer is what the later memo says of a type.
    refine ⟨cands, hcands, rfl, fun u => m'.answer? u = some true, rfl, fun u hu => ?_⟩
    obtain ⟨b, hb⟩ := hanswers u hu
    have hanswer : decide (m'.answer? u = some true) = b := by rw [hb]; cases b <;> rfl
    show p.Judged m m' u (decide (m'.answer? u = some true))
    rw [hanswer]
    exact judged_of_answer? hretains (hm.parts h) hb

/-- Whether a type needs drop can be read off what its glue is made of. -/
theorem needsDrop_iff_calls (hgrounded : p.Grounded t) (hm : m.Asked p)
    (h : p.dropParts fuel t m = some (r, m')) : p.NeedsDrop t ↔
      t.Owner ∨ (∃ e, r = .error e) ∨ ¬ t.IsEmptyArray ∧ ∃ parts, r = .ok parts ∧ parts.Calls := by
  -- an owner calls its method or frees what it holds, whatever lies inside
  by_cases howner : t.Owner
  · exact iff_of_true (needsDrop_of_always howner.dropShape) (.inl howner)
  cases r with
  | error e =>
    obtain ⟨e, hcands, -⟩ | ⟨cands, kept, -, -, hr⟩ := dropParts_eq_some_iff.1 h
    · exact iff_of_true (needsDrop_of_error hcands) (.inr (.inl ⟨_, rfl⟩))
    · cases hr
  | ok parts =>
    obtain ⟨cands, hcands, hmethod, answer, hchildren, hjudged⟩ := judged_of_dropParts hm h
    rw [needsDrop_iff_candidates hcands howner, ← hmethod]
    constructor
    · rintro ⟨hempty, hcalls⟩
      refine .inr (.inr ⟨hempty, parts, rfl, ?_⟩)
      by_cases hsome : parts.method.isSome = true
      · exact .inl hsome
      · -- without a method the types inside are judged by whether they need drop
        obtain ⟨u, hu, hneeds⟩ := hcalls.resolve_left hsome
        have hinside := byValue_of_candidate hcands howner hempty
          (by rw [← hmethod]; exact Bool.eq_false_of_not_eq_true hsome) hu
        have hkept := ((hjudged u hu).grounded (hgrounded.byValue hinside)).2 hneeds
        right
        rw [hchildren]
        exact List.ne_nil_of_mem (List.mem_filter.2 ⟨hu, hkept⟩)
    · rintro (h | ⟨e, he⟩ | ⟨hempty, parts', hr, hsome | hsome⟩)
      · exact absurd h howner
      · cases he
      · obtain rfl := Except.ok.inj hr
        exact ⟨hempty, .inl hsome⟩
      · -- whatever is kept was said to need drop, and such answers are right
        obtain rfl := Except.ok.inj hr
        obtain ⟨u, hu⟩ := List.exists_mem_of_ne_nil _ hsome
        rw [hchildren, List.mem_filter] at hu
        exact ⟨hempty, .inr ⟨u, hu.1, (hjudged u hu.1).sound hu.2⟩⟩

/-! ## Glue that is collected -/

/-- Settling needs with a credible memo keeps the glue of types that need drop, and the memo
    credible. -/
theorem settle_credible {needs : List Need} {ns : List Neighbor} (hm : m.Credible p)
    (h : p.settle fuel needs m = some (ns, m')) : Sifts p.Credible needs ns ∧ m'.Credible p :=
  settle_sifts (fun u _ _ _ => classify_credible (around_empty u)) hm h

/-- Credible memos are kept by everything the walk asks. -/
theorem preserves_credible : p.Preserves (DropMemo.Credible p) :=
  fun _ _ _ _ _ hm h => (settle_credible hm h).2

/-- What is used without a look at types is an instance of an item. -/
theorem item?_of_requires {unused : UnusedSets} {inst : Instance} {n : Neighbor}
    (h : p.Requires unused inst (.use n)) : ∃ i, n.inst.item? = some i := by
  generalize hneed : Need.use n = need at h
  -- what is needed in any case is an item's instance or a shim's
  cases h <;> cases hneed
  · exact ⟨_, item?_instanceDef _⟩
  · exact ⟨_, item?_instanceDef _⟩
  · exact ⟨_, rfl⟩
  · exact ⟨_, item?_instanceDef _⟩
  · exact ⟨_, item?_instanceDef _⟩

/-- Where glue for a type is reached, the type needs drop and is no trait object. -/
theorem needsDrop_of_reachedFrom {unused : UnusedSets} {config : Config}
    (h : p.ReachedFrom unused (DropMemo.Credible p) config (p.roots unused config) (.glue t)) :
    p.NeedsDrop t ∧ ∀ i, t ≠ .dyn i := by
  obtain ⟨root, hroot, hpath⟩ := h
  obtain hglue | ⟨x, -, -, -, ns, ⟨hfail, fuel, m, m', hm, hsettle⟩, n, hn, hglue⟩ :=
    hpath.cases_tail
  · -- roots are items
    obtain ⟨i, -, hi⟩ := List.mem_map.1 hroot
    have hitem : root.item? = some i := hi ▸ item?_instanceDef i
    rw [← hglue] at hitem
    cases hitem
  · obtain huse | ⟨u, -, hu, hne, hneeds⟩ := (settle_credible hm hsettle).1.found hn
    · obtain ⟨i, hi⟩ := item?_of_requires (requires_of_finds (Needs.finds_found hfail) huse)
      rw [hglue] at hi
      cases hi
    · obtain rfl : u = t := by simpa [Instance.glue] using hu.symm.trans hglue
      exact ⟨hneeds, hne⟩

section Collected

variable {config : Config} {a : Analyzer} {c : Collection} {result : CollectResult}

/-- What is collected was reached from the roots. -/
theorem reachedFrom_of_collect {M : DropMemo → Prop} (hM : p.Preserves M) (hempty : M {})
    (h : p.collect config a fuel = some result) (hc : result.outcome = .ok c) {inst : Instance}
    (hinst : c.contains inst = true) :
    p.ReachedFrom (a.unused p) M config (p.roots (a.unused p) config) inst := by
  obtain ⟨w, hrun, rfl⟩ := collect_eq_some_iff.1 h
  have hinv := (inv_startWalk hempty (a.unused p)).reach hM (Walk.moves_of_run hrun).1
  obtain ⟨x, hx, rfl⟩ := Collection.contains_iff.1 hinst
  obtain ⟨s, hs, rfl⟩ := (Walk.mem_members_finish hc).1 hx
  exact hinv.reached s.inst (.inl (hinv.recorded s hs))

/-- With an analyzer whose entries are right, glue is collected for types without parameters. -/
theorem mentions_of_collect {enabled : Bool} (ha : a.Unseeded p enabled)
    (h : p.collect config a fuel = some result) (hc : result.outcome = .ok c)
    (ht : c.contains (.glue t) = true) : t.mentions = [] := by
  -- an instance that was reached has settled arguments, and for glue these mention nothing
  have hreached := reachedFrom_of_collect preserves_true trivial h hc ht
  rw [ha.unused_eq] at hreached
  have hsettled := settled_of_reachedFrom (fun i => UnusedTable.get?_empty i) hreached
  obtain ⟨u, hu, hmentions⟩ := hsettled.glue rfl
  obtain rfl : t = u := by simpa [Instance.glue] using hu
  exact hmentions

/-- Glue that is collected is for a type that needs drop; that is so as it stands for a box only. -/
theorem needsDrop_of_collect {enabled : Bool} (ha : a.Unseeded p enabled)
    (h : p.collect config a fuel = some result) (hc : result.outcome = .ok c)
    (ht : c.contains (.glue t) = true) :
    p.NeedsDrop t ∧ ((∀ u, t ≠ .wrap .box u) → ¬ t.Owner) := by
  obtain ⟨hneeds, hobject⟩ := needsDrop_of_reachedFrom
    (reachedFrom_of_collect preserves_credible DropMemo.credible_empty h hc ht)
  refine ⟨hneeds, fun hbox howner => ?_⟩
  cases howner with
  | box => exact hbox _ rfl
  | object => exact hobject _ rfl
  | param =>
    -- nothing that is collected mentions a parameter
    exact List.cons_ne_nil _ _ (mentions_of_collect ha h hc ht)

/-- Whether the glue for a type calls what it could be made of: the drop method and the glue for
    every type inside that needs drop. A trait object is dropped through its vtable. -/
structure RunsGlue (p : Program) (unused : UnusedSets) (c : Collection) (t : Ty)
    (cands : DropParts) : Prop where
  method : ∀ method args, cands.method = some (method, args) →
    ∃ target, p.instantiate unused method args = .ok target ∧ c.Uses (.glue t) target .call
  inside : ∀ u ∈ cands.children, p.Grounded u → p.NeedsDrop u → (∀ i, u ≠ .dyn i) →
    c.Uses (.glue t) (.glue u) .drop
  /-- Only the glue for a box may have nothing to call. -/
  calls : (∀ u, t ≠ .wrap .box u) →
    cands.method.isSome = true ∨ ∃ u ∈ cands.children, p.NeedsDrop u

/-- Collected glue runs the declared method and the glue of what is inside. -/
theorem runsGlue_of_collect {enabled : Bool} (ha : a.Unseeded p enabled)
    (h : p.collect config a fuel = some result) (hc : result.outcome = .ok c)
    (ht : c.contains (.glue t) = true) :
    ∃ cands, p.glueCandidates t = .ok cands ∧ p.RunsGlue (a.unused p) c t cands := by
  obtain ⟨ns, ⟨hfail, fuel', m, m', hm, hsettle⟩, huses⟩ :=
    exists_scan_of_collect preserves_credible DropMemo.credible_empty h hc ht rfl
  obtain ⟨cands, hcands, hchildren, hmethod⟩ := finds_glue (Needs.finds_found hfail)
  have hsifts := (settle_credible hm hsettle).1
  refine ⟨cands, hcands, ?_⟩
  constructor
  case method =>
    intro method args hm
    obtain ⟨target, htarget, hneed⟩ := hmethod method args hm
    exact ⟨target, htarget, (huses _ _).2 ⟨_, hsifts.of_use hneed, rfl, rfl⟩⟩
  case inside =>
    intro u hu hgrounded hneeds hobject
    -- the scan asks for the glue of everything inside and leaves out what it takes for harmless
    obtain ⟨i, hdyn⟩ | hharmless | ⟨-, hn⟩ := hsifts.of_glue (hchildren u hu)
    · exact absurd hdyn (hobject i)
    · exact absurd hneeds (hharmless hgrounded)
    · exact (huses _ _).2 ⟨_, hn, rfl, rfl⟩
  case calls =>
    intro hbox
    obtain ⟨hneeds, howner⟩ := needsDrop_of_collect ha h hc ht
    exact ((needsDrop_iff_candidates hcands (howner hbox)).1 hneeds).2

/-- The parts found for collected glue have something to call, unless it is the glue for a box. -/
theorem calls_of_collect {enabled : Bool} (ha : a.Unseeded p enabled)
    (h : p.collect config a fuel = some result) (hc : result.outcome = .ok c)
    (ht : c.contains (.glue t) = true) (hgrounded : p.Grounded t) (hbox : ∀ u, t ≠ .wrap .box u)
    (hm : m.Asked p) {fuel' : Nat} (hparts : p.dropParts fuel' t m = some (r, m')) :
    ∃ parts, r = .ok parts ∧ parts.Calls := by
  obtain ⟨hneeds, howner⟩ := needsDrop_of_collect ha h hc ht
  -- Glue is collected for types that need drop, and of those only boxes may have nothing to call.
  obtain howner' | ⟨e, rfl⟩ | ⟨-, hcalls⟩ := (needsDrop_iff_calls hgrounded hm hparts).1 hneeds
  · exact absurd howner' (howner hbox)
  · -- the scan of the glue would have failed as well
    obtain ⟨cands, hcands, -⟩ := runsGlue_of_collect ha h hc ht
    obtain ⟨e', he, -⟩ | ⟨cands', kept, -, -, hr⟩ := dropParts_eq_some_iff.1 hparts
    · cases he.symm.trans hcands
    · cases hr
  · exact hcalls

end Collected

/-! ## The main result -/

/-- How the two walks over the layers of a type agree. -/
structure GlueAgrees (p : Program) (t : Ty) : Prop where
  /-- It is found out whether the type needs drop, if finitely many types lie in it by value. -/
  classified : {u | Relation.ReflTransGen p.ByValue t u}.Finite → ∀ m, ∃ enough b m',
    ∀ fuel, enough ≤ fuel → p.needsDrop fuel t m = some (b, m')
  /-- So is what its glue is made of, if finitely many types lie also in those that glue could be
      made of and that do not lie in the type by value themselves. -/
  assembled : {u | Relation.ReflTransGen p.ByValue t u}.Finite →
    (∀ cands, p.glueCandidates t = .ok cands → ∀ u ∈ cands.children,
      p.ByValue t u ∨ {v | Relation.ReflTransGen p.ByValue u v}.Finite) →
    ∀ m, ∃ enough r m', ∀ fuel, enough ≤ fuel → p.dropParts fuel t m = some (r, m')
  /-- The two answers agree, whatever was asked before each of them. -/
  needed_iff : ∀ {m₁ m₁' m₂ m₂' : DropMemo} {fuel₁ fuel₂ : Nat} {b : Bool}
    {r : Except SubstError DropParts}, m₁.Asked p → m₂.Asked p →
    p.needsDrop fuel₁ t m₁ = some (b, m₁') → p.dropParts fuel₂ t m₂ = some (r, m₂') →
    (b = true ↔ t.Owner ∨ (∃ e, r = .error e) ∨
      ¬ t.IsEmptyArray ∧ ∃ parts, r = .ok parts ∧ parts.Calls)
  /-- The types inside that are kept are those that need drop by the answers of the classifier. -/
  judged : ∀ {m m' : DropMemo} {fuel : Nat} {parts : DropParts}, m.Asked p →
    p.dropParts fuel t m = some (.ok parts, m') →
    ∃ cands, p.glueCandidates t = .ok cands ∧ parts.method = cands.method ∧
      ∃ answer : Ty → Bool, parts.children = cands.children.filter answer ∧
        ∀ u ∈ cands.children, p.Judged m m' u (answer u)
  /-- They lie by value in the type, and none of them in itself, unless the type owns what it points
      to, has no items or has a drop method. -/
  inside : ∀ {cands : DropParts}, p.glueCandidates t = .ok cands → ¬ t.Owner → ¬ t.IsEmptyArray →
    cands.method = none → ∀ u ∈ cands.children, p.ByValue t u ∧ p.Grounded u
  /-- Glue that is collected calls whatever needs drop, and that is something unless the type is a
      box; so the parts found for it say. -/
  collected : ∀ {config : Config} {enabled : Bool} {table : UnusedTable} {fuel : Nat}
    {result : CollectResult} {c : Collection}, table.IsRight p enabled →
    p.collect config { enabled, known := table } fuel = some result → result.outcome = .ok c →
    c.contains (.glue t) = true →
    (∃ cands, p.glueCandidates t = .ok cands ∧
      p.RunsGlue (Analyzer.unused { enabled, known := table } p) c t cands) ∧
    ((∀ u, t ≠ .wrap .box u) → ∀ {m m' : DropMemo} {fuel : Nat} {r : Except SubstError DropParts},
      m.Asked p → p.dropParts fuel t m = some (r, m') → ∃ parts, r = .ok parts ∧ parts.Calls)

/-- Whether a type needs drop and what its glue is made of agree for each type in which no type lies
    inside itself. -/
theorem glueAgrees (hgrounded : p.Grounded t) : p.GlueAgrees t where
  classified hfinite m := exists_enough (exists_needsDrop_of_finite hfinite m)
  assembled hfinite hothers m := by
    cases hcands : p.glueCandidates t with
    | error e =>
      exact ⟨0, _, _, fun _ _ => dropParts_eq_some_iff.2 (.inl ⟨e, hcands, rfl, rfl⟩)⟩
    | ok cands =>
      have hasked : ∀ u ∈ cands.children, ∀ m, ∃ fuel, (p.needsDrop fuel u m).isSome = true := by
        intro u hu
        refine exists_needsDrop_of_finite ?_
        -- what lies in a part by value lies in the type by value
        obtain hby | hfinite' := hothers cands hcands u hu
        · exact hfinite.subset fun v hv => .head hby hv
        · exact hfinite'
      obtain ⟨enough, ⟨kept, m'⟩, h⟩ := exists_keepParts hasked (m.note (p.glueFormed t))
      exact ⟨enough, _, m', fun fuel hle =>
        dropParts_eq_some_iff.2 (.inr ⟨cands, kept, hcands, h fuel hle, rfl⟩)⟩
  needed_iff hm₁ hm₂ hneeds hparts :=
    ((classify_credible (around_empty t) (credible_of_asked hm₁) hneeds).1.iff hgrounded).trans
      (needsDrop_iff_calls hgrounded hm₂ hparts)
  judged hm hparts := judged_of_dropParts hm hparts
  inside hcands howner hempty hmethod u hu := by
    have hby := byValue_of_candidate hcands howner hempty (by rw [hmethod]; rfl) hu
    exact ⟨hby, hgrounded.byValue hby⟩
  collected hright h hc ht :=
    have ha := Analyzer.unseeded_of_isRight hright
    ⟨runsGlue_of_collect ha h hc ht, fun hbox _ _ _ _ hm hparts =>
      calls_of_collect ha h hc ht hgrounded hbox hm hparts⟩

/-- In the gallery the glue for a pair with a wall is collected. It is made of the box around the
    wall alone, also after the wall has been asked about. -/
theorem glueAgrees_gallery :
    let t : Ty := .tuple (.ofList [.prim .u8, .wrap .box (.adt 6 [])])
    gallery.Grounded t ∧ gallery.GlueAgrees t ∧
      (∃ b₁ m₁ parts m₂, gallery.needsDrop 9 (.adt 6 []) {} = some (b₁, m₁) ∧
        gallery.dropParts 9 t m₁ = some (.ok parts, m₂) ∧
        parts.children = [.wrap .box (.adt 6 [])]) ∧
      ∃ result c, gallery.collect {} { enabled := true } 40 = some result ∧
        result.outcome = .ok c ∧ c.contains (.glue t) = true := by
  intro t
  have hgrounded : gallery.Grounded t := fun u _ => acyclic_gallery u
  have hasked : ((gallery.needsDrop 9 (.adt 6 []) {}).any fun r => (gallery.dropParts 9 t r.2).any
      fun r => r.1.toOption.any fun parts => parts.children = [.wrap .box (.adt 6 [])]) = true := by
    decide +kernel
  simp only [Option.any_eq_true, decide_eq_true_eq] at hasked
  obtain ⟨⟨b₁, m₁⟩, hfirst, ⟨r, m₂⟩, hsecond, parts, hparts, hchildren⟩ := hasked
  -- What was evaluated is a Boolean; the answer behind it is one with parts.
  have hr : r = .ok parts := by
    cases r with
    | error e => cases hparts
    | ok parts' => exact congrArg Except.ok (Option.some.inj hparts)
  obtain ⟨result, c, hresult, hc, hinsts⟩ : ∃ result c, gallery.collect {} { enabled := true } 40 =
      some result ∧ result.outcome = .ok c ∧ ∀ inst ∈ [.glue t], c.contains inst = true :=
    exists_collection (by decide +kernel)
  exact ⟨hgrounded, glueAgrees hgrounded, ⟨b₁, m₁, parts, m₂, hfirst, hr ▸ hsecond, hchildren⟩,
    result, c, hresult, hc, hinsts _ List.mem_cons_self⟩

end Program

end Monomorph
