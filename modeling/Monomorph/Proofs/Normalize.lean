import Monomorph.Proofs.Unused
import Monomorph.Instance.Make

/-!
# Normalized arguments

`Generics.normalize` writes placeholders into the unused slots and leaves the others alone. It does
nothing when done twice, argument lists become equal exactly if they agree in the used slots, and
since a placeholder is as short and as shallow as an argument can be, no limit is met that was not
met before.
-/

namespace Monomorph

namespace Generics

variable {g : Generics} {unused : ParamSet}

/-- What normalization writes into a slot that holds `a`. -/
def normalizeSlot (g : Generics) (unused : ParamSet) (i : Nat) (a : Arg Ty) : Arg Ty :=
  match g.params[i]? with
  | some param => if unused.contains i then param.kind.placeholder i else a
  | none => a

/-- Arguments are normalized slot by slot. -/
theorem getElem?_normalize (args : Args) (i : Nat) :
    (g.normalize unused args)[i]? = args[i]?.map (g.normalizeSlot unused i) := by
  rw [normalize, List.getElem?_mapIdx]
  rfl

/-- A slot whose parameter is used is kept. -/
theorem normalizeSlot_of_used {i : Nat} (h : unused.contains i = false) (a : Arg Ty) :
    g.normalizeSlot unused i a = a := by
  unfold normalizeSlot
  split
  · simp [h]
  · rfl

/-- A slot whose parameter is not used is replaced by the placeholder. -/
theorem normalizeSlot_of_unused {i : Nat} (h : unused.contains i = true) {param : Param}
    (hp : g.params[i]? = some param) (a : Arg Ty) :
    g.normalizeSlot unused i a = param.kind.placeholder i := by
  simp [normalizeSlot, hp, h]

/-- A slot holds what it held, or the placeholder of a parameter that is unused. -/
theorem normalizeSlot_cases (g : Generics) (unused : ParamSet) (i : Nat) (a : Arg Ty) :
    g.normalizeSlot unused i a = a ∨ ∃ param, g.params[i]? = some param ∧ unused.contains i = true ∧
      g.normalizeSlot unused i a = param.kind.placeholder i := by
  -- only a slot of an unused parameter is replaced
  cases h : unused.contains i with
  | false => exact .inl (normalizeSlot_of_used h a)
  | true =>
    cases hp : g.params[i]? with
    | none => exact .inl (by simp [normalizeSlot, hp])
    | some param => exact .inr ⟨param, rfl, rfl, normalizeSlot_of_unused h hp a⟩

/-- A slot that is not unused stays as it is. -/
theorem getElem?_normalize_of_used {i : Nat} (h : unused.contains i = false) (args : Args) :
    (g.normalize unused args)[i]? = args[i]? := by
  rw [getElem?_normalize]
  cases args[i]? with
  | none => rfl
  | some a => exact congrArg some (normalizeSlot_of_used h a)

/-- The unused slot of a parameter holds the parameter's placeholder. -/
theorem getElem?_normalize_of_unused {i : Nat} (h : unused.contains i = true) {param : Param}
    (hp : g.params[i]? = some param) {args : Args} (hi : i < args.length) :
    (g.normalize unused args)[i]? = some (param.kind.placeholder i) := by
  rw [getElem?_normalize, List.getElem?_eq_getElem hi]
  exact congrArg some (normalizeSlot_of_unused h hp _)

/-- Arguments in normal form are left as they are. -/
theorem normalize_normalize (args : Args) :
    g.normalize unused (g.normalize unused args) = g.normalize unused args := by
  apply List.ext_getElem?
  intro i
  rw [getElem?_normalize, getElem?_normalize]
  cases args[i]? with
  | none => rfl
  | some a =>
    -- a slot is left as it was, or it holds the placeholder, which stays
    obtain h | ⟨param, hp, hu, h⟩ := g.normalizeSlot_cases unused i a
    · simp [h]
    · simp [h, normalizeSlot_of_unused hu hp]

/-- Lists have one normal form exactly if they agree in the used slots. -/
theorem normalize_eq_iff {args args' : Args} (hlen : args.length = args'.length)
    (hunused : ∀ i, unused.contains i = true → i < g.count) :
    g.normalize unused args = g.normalize unused args' ↔
      ∀ i, unused.contains i = false → args[i]? = args'[i]? := by
  constructor
  · intro h i hi
    rw [← getElem?_normalize_of_used hi args, h, getElem?_normalize_of_used hi]
  · intro hagree
    apply List.ext_getElem?
    intro i
    -- Slots in use agree by assumption; at all others both sides have one placeholder.
    cases h : unused.contains i with
    | false => rw [getElem?_normalize_of_used h, getElem?_normalize_of_used h, hagree i h]
    | true =>
      have hparam := List.getElem?_eq_getElem (hunused i h)
      by_cases hi : i < args.length
      · rw [getElem?_normalize_of_unused h hparam hi,
          getElem?_normalize_of_unused h hparam (by omega)]
      · rw [List.getElem?_eq_none (by rw [length_normalize]; omega),
          List.getElem?_eq_none (by rw [length_normalize]; omega)]

end Generics

/-- Whether the slots of an argument list are of the sorts that parameters declare. -/
def Args.HasKinds (args : Args) (g : Generics) : Prop :=
  ∀ (i : Nat) (a : Arg Ty) (param : Param),
    args[i]? = some a → g.params[i]? = some param → a.kind = param.kind

instance (args : Args) (g : Generics) : Decidable (args.HasKinds g) :=
  decidable_of_iff (∀ x ∈ args.zip g.params, x.1.kind = x.2.kind) (by
    constructor
    · intro h i a param ha hparam
      exact h (a, param) (List.mem_of_getElem? (List.getElem?_zip_eq_some.2 ⟨ha, hparam⟩))
    · intro h x hx
      obtain ⟨i, hi⟩ := List.mem_iff_getElem?.1 hx
      obtain ⟨ha, hparam⟩ := List.getElem?_zip_eq_some.1 hi
      exact h i x.1 x.2 ha hparam)

/-- A placeholder is of the kind that it stands for. -/
@[simp] theorem ParamKind.kind_placeholder (k : ParamKind) (i : Nat) :
    (k.placeholder i).kind = k := by
  cases k <;> rfl

/-- What fits arguments of the declared sorts, one for each parameter, is what the parameters
    declare. -/
theorem Args.HasKinds.fits_iff {args : Args} {g : Generics} (hkinds : args.HasKinds g)
    (hlen : args.length = g.count) {m : Mention} :
    args.Fits m ↔ ∃ param, g.params[m.2]? = some param ∧ param.kind = m.1 := by
  constructor
  · -- a slot has the sort of its parameter
    intro ⟨a, ha, hk⟩
    obtain ⟨hi, -⟩ := List.getElem?_eq_some_iff.1 ha
    have hparam := List.getElem?_eq_getElem (Nat.lt_of_lt_of_eq hi hlen)
    exact ⟨_, hparam, (hkinds _ _ _ ha hparam).symm.trans hk⟩
  · intro ⟨param, hparam, hk⟩
    obtain ⟨hi, -⟩ := List.getElem?_eq_some_iff.1 hparam
    have ha := List.getElem?_eq_getElem (Nat.lt_of_lt_of_eq hi hlen.symm)
    exact ⟨_, ha, (hkinds _ _ _ ha hparam).trans hk⟩

/-! ## Agreement -/

/-- Whether an argument list can stand for another one where only some slots are used: it holds the
    same in those, and what fits the other fits it as well. -/
structure Args.Agree (unused : ParamSet) (args args' : Args) : Prop where
  length : args'.length = args.length
  used : ∀ i, unused.contains i = false → args'[i]? = args[i]?
  fits : ∀ m, args.Fits m → args'.Fits m

/-- Arguments of the declared sorts agree if they are the same in the used slots. -/
theorem Args.HasKinds.agree {args args' : Args} {g : Generics} (hkinds : args.HasKinds g)
    (hlen : args.length = g.count) (hkinds' : args'.HasKinds g) (hlen' : args'.length = g.count)
    {unused : ParamSet} (h : ∀ i, unused.contains i = false → args'[i]? = args[i]?) :
    args.Agree unused args' where
  length := hlen'.trans hlen.symm
  used := h
  fits _ hm := (hkinds'.fits_iff hlen').2 ((hkinds.fits_iff hlen).1 hm)

/-- Arguments of the declared sorts agree with their normal form: normalizing changes no sort. -/
theorem Args.HasKinds.agree_normalize {args : Args} {g : Generics} (hkinds : args.HasKinds g)
    (unused : ParamSet) : args.Agree unused (g.normalize unused args) where
  length := g.length_normalize unused args
  used i hi := Generics.getElem?_normalize_of_used hi args
  fits m := by
    intro ⟨a, ha, hk⟩
    refine ⟨g.normalizeSlot unused m.2 a, ?_, ?_⟩
    · rw [Generics.getElem?_normalize, ha]
      rfl
    · -- a placeholder is of the sort that the slot was of
      obtain h | ⟨param, hp, -, h⟩ := g.normalizeSlot_cases unused m.2 a
      · rw [h, hk]
      · rw [h, ParamKind.kind_placeholder, ← hkinds m.2 a param ha hp, hk]

/-! ## Length and depth -/

/-- A saturating sum is at least where it starts. -/
private theorem le_foldl_satAdd (ns : List Nat) {a : Nat} (ha : a ≤ maxLength) :
    a ≤ ns.foldl satAdd a := by
  induction ns generalizing a with
  | nil => exact Nat.le_refl a
  | cons n ns ih =>
    -- each addition leaves the sum or makes it larger, up to the bound
    have hle : a ≤ satAdd a n := by rw [satAdd_eq_min]; omega
    have hmax : satAdd a n ≤ maxLength := Nat.min_le_right _ _
    exact Nat.le_trans hle (ih hmax)

/-- Every type has a node. -/
theorem Ty.one_le_length (t : Ty) : 1 ≤ t.length := by
  rw [← t.of_node, Ty.length, Ty.measure_of, Measure.ofNode]
  exact le_foldl_satAdd _ (by decide)

/-- Every type has a level. -/
theorem Ty.one_le_depth (t : Ty) : 1 ≤ t.depth := by
  rw [← t.of_node, Ty.depth, Ty.measure_of, Measure.ofNode]
  exact Nat.le_add_left 1 _

/-- The number of nodes in a slot. -/
abbrev Arg.nodes (a : Arg Ty) : Nat := (a.map Ty.measure).length

/-- How deep a slot is nested. -/
abbrev Arg.levels (a : Arg Ty) : Nat := (a.map Ty.measure).depth

/-- A placeholder has no more nodes than any slot. -/
private theorem nodes_placeholder_le (k : ParamKind) (i : Nat) (a : Arg Ty) :
    (k.placeholder i).nodes ≤ a.nodes := by
  have hone : (k.placeholder i).nodes = 1 := by cases k <;> rfl
  rw [hone]
  cases a with
  | ty t => exact t.one_le_length
  | const c => exact Nat.le_refl 1

/-- A placeholder has no more levels than any slot. -/
private theorem levels_placeholder_le (k : ParamKind) (i : Nat) (a : Arg Ty) :
    (k.placeholder i).levels ≤ a.levels := by
  have hone : (k.placeholder i).levels = 1 := by cases k <;> rfl
  rw [hone]
  cases a with
  | ty t => exact t.one_le_depth
  | const c => exact Nat.le_refl 1

namespace Generics

/-- Every slot of a normal form is related to the slot it was made from, if a placeholder is. -/
private theorem forall₂_normalize {R : Arg Ty → Arg Ty → Prop} (hrefl : ∀ a, R a a)
    (hplace : ∀ k i a, R (ParamKind.placeholder k i) a) (g : Generics) (unused : ParamSet)
    (args : Args) : List.Forall₂ R (g.normalize unused args) args := by
  rw [List.forall₂_iff_get]
  refine ⟨g.length_normalize unused args, fun i h h' => ?_⟩
  have hslot : (g.normalize unused args)[i] = g.normalizeSlot unused i args[i] := by
    have hget : (g.normalize unused args)[i]? = args[i]?.map (g.normalizeSlot unused i) :=
      getElem?_normalize args i
    rw [List.getElem?_eq_getElem h, List.getElem?_eq_getElem h'] at hget
    exact Option.some.inj hget
  rw [List.get_eq_getElem, List.get_eq_getElem, hslot]
  -- Each slot is the old one or a placeholder, and either is related to the old one.
  obtain he | ⟨param, -, -, he⟩ := g.normalizeSlot_cases unused i args[i]
  · rw [he]
    exact hrefl _
  · rw [he]
    exact hplace _ _ _

/-- Normalization never makes arguments longer. -/
theorem nodeCount_normalize_le (g : Generics) (unused : ParamSet) (args : Args) :
    (g.normalize unused args).nodeCount ≤ args.nodeCount := by
  -- Both sums are folds over the slots, which are compared one by one.
  have hslots : List.Forall₂ (fun a b => a.nodes ≤ b.nodes) (g.normalize unused args) args :=
    forall₂_normalize (fun a => Nat.le_refl a.nodes) nodes_placeholder_le g unused args
  have hmono : ∀ (m n : Nat) (a b : Arg Ty), m ≤ n → a.nodes ≤ b.nodes →
      satAdd m a.nodes ≤ satAdd n b.nodes := by
    intro m n a b hm hab
    rw [satAdd_eq_min, satAdd_eq_min]
    omega
  have fold : ∀ as : Args, as.nodeCount = as.foldl (fun n a => satAdd n a.nodes) 0 := by
    intro as
    rw [Args.nodeCount, Args.measures, List.foldl_map, List.foldl_map]
  rw [fold, fold]
  exact foldl_le_foldl hmono hslots (Nat.le_refl 0)

/-- Normalization never nests arguments deeper. -/
theorem nesting_normalize_le (g : Generics) (unused : ParamSet) (args : Args) :
    (g.normalize unused args).nesting ≤ args.nesting := by
  have hslots : List.Forall₂ (fun a b => a.levels ≤ b.levels) (g.normalize unused args) args :=
    forall₂_normalize (fun a => Nat.le_refl a.levels) levels_placeholder_le g unused args
  -- the depth of a list grows with that of each slot
  have hmono : ∀ (m n : Nat) (a b : Arg Ty), m ≤ n → a.levels ≤ b.levels →
      max m a.levels ≤ max n b.levels := by
    intro m n a b hm hab
    omega
  have fold : ∀ as : Args, as.nesting = as.foldl (fun n a => max n a.levels) 0 := by
    intro as
    rw [Args.nesting, Args.measures, List.foldl_map, List.foldl_map]
  rw [fold, fold]
  exact foldl_le_foldl hmono hslots (Nat.le_refl 0)

end Generics

/-! ## Instances -/

namespace Program

variable (p : Program) (unused : UnusedSets)

/-- An instance with its arguments normalized by what its item does not use. Drop glue is about a
    type and not about an item, and stays as it is. -/
def normalized (inst : Instance) : Instance :=
  match inst.item? with
  | some i => { inst with args := (p.item i).generics.normalize (unused i) inst.args }
  | none => inst

/-- Normal form changes nothing but the arguments. -/
@[simp] theorem normalized_what (inst : Instance) :
    (p.normalized unused inst).what = inst.what := by
  unfold normalized
  split <;> rfl

/-- Normal form keeps the item. -/
@[simp] theorem normalized_item? (inst : Instance) :
    (p.normalized unused inst).item? = inst.item? := by
  rw [Instance.item?, normalized_what]
  rfl

/-- An instance in normal form has no more nodes. -/
theorem nodeCount_normalized_le (inst : Instance) :
    (p.normalized unused inst).args.nodeCount ≤ inst.args.nodeCount := by
  unfold normalized
  split
  · exact Generics.nodeCount_normalize_le _ _ _
  · exact Nat.le_refl _

/-- An instance in normal form is not nested deeper. -/
theorem nesting_normalized_le (inst : Instance) :
    (p.normalized unused inst).args.nesting ≤ inst.args.nesting := by
  unfold normalized
  split
  · exact Generics.nesting_normalize_le _ _ _
  · exact Nat.le_refl _

end Program

end Monomorph
