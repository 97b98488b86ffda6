import Mathlib.Order.Bounds.Basic
import Monomorph.Proofs.Finite
import Monomorph.Proofs.Matching

/-!
# What a measure says

A measure is made one layer at a time from the measures of the children. What it says of the whole
type is stated here without layers: a flag is set exactly if a node that sets it occurs somewhere in
the type (`Ty.flag_iff`), the depth is the greatest number of types that lie inside each other
(`Ty.isGreatest_depth`), and the length is the number of nodes of the written-out type, stopped at
the greatest number of 64 bits (`Ty.length_eq_min`).
-/

namespace Monomorph

/-! ## Flags -/

/-- Whether a flag is set by a node itself or by one of its constants. -/
def TyNode.Sets {α : Type} (flag : Flags → Bool) (n : TyNode α) : Prop :=
  flag n.ownFlags = true ∨ ∃ c, .const c ∈ n.slots ∧ flag (Arg.const c).flags = true

/-- Whether a flag is set in two types together exactly if it is in one of them, and is passed on
    to the types around. -/
structure Flags.IsInherited (flag : Flags → Bool) : Prop where
  union : ∀ f g : Flags, flag (f.union g) = (flag f || flag g)
  inherited : ∀ f : Flags, flag f.inherited = flag f

/-- A flag of a union is set where it is set in one of its parts. -/
theorem Flags.foldl_union {flag : Flags → Bool}
    (h : ∀ f g : Flags, flag (f.union g) = (flag f || flag g)) (fs : List Flags) (f : Flags) :
    flag (fs.foldl Flags.union f) = true ↔ flag f = true ∨ ∃ g ∈ fs, flag g = true := by
  induction fs generalizing f with
  | nil => simp
  | cons g fs ih => rw [List.foldl_cons, ih, h, Bool.or_eq_true, List.exists_mem_cons_iff, or_assoc]

/-- Mapping a layer keeps its own flags. -/
@[simp] theorem TyNode.ownFlags_map {α β : Type} (f : α → β) (n : TyNode α) :
    (n.map f).ownFlags = n.ownFlags := by
  cases n with
  | tuple ts => cases ts <;> rfl
  | wrap w t => cases w <;> rfl
  | nominal k i as => cases k <;> rfl
  | _ => rfl

namespace Ty

/-- A flag of a layer comes from the layer itself or from a slot. -/
theorem flag_of_iff {flag : Flags → Bool}
    (h : ∀ f g : Flags, flag (f.union g) = (flag f || flag g)) (n : TyNode Ty) :
    flag (of n).flags = true ↔
      flag n.ownFlags = true ∨ ∃ a ∈ n.slots, flag (a.map measure).flags = true := by
  rw [flags, measure_of, Measure.ofNode, Flags.foldl_union h, TyNode.ownFlags_map,
    TyNode.slots_map]
  simp only [List.mem_map, exists_exists_and_eq_and]

/-- What a type contains is itself or contained in a type of a slot. -/
theorem contains_of_iff {n : TyNode Ty} {u : Ty} :
    (of n).Contains u ↔ u = of n ∨ ∃ t, .ty t ∈ n.slots ∧ t.Contains u := by
  rw [Contains, Relation.ReflTransGen.cases_head_iff, node_of, eq_comm]

/-- An inherited flag is set exactly if a node that sets it occurs in the type. -/
theorem flag_iff {flag : Flags → Bool} (h : Flags.IsInherited flag) (t : Ty) :
    flag t.flags = true ↔ ∃ u, t.Contains u ∧ u.node.Sets flag := by
  induction t using Ty.ind with
  | layer n ih =>
    -- A flag is set by the layer itself or below one of its slots.
    simp only [flag_of_iff h.union, contains_of_iff]
    constructor
    · rintro (hown | ⟨a, ha, hflag⟩)
      · exact ⟨of n, .inl rfl, .inl (by rwa [node_of])⟩
      · cases a with
        | ty t =>
          rw [Arg.map_ty, Arg.flags, h.inherited] at hflag
          obtain ⟨u, hu, hsets⟩ := (ih t ha).1 hflag
          exact ⟨u, .inr ⟨t, ha, hu⟩, hsets⟩
        | const c => exact ⟨of n, .inl rfl, .inr ⟨c, by rwa [node_of], hflag⟩⟩
    · rintro ⟨u, rfl | ⟨t, ht, hu⟩, hsets⟩
      · rw [node_of] at hsets
        rcases hsets with hown | ⟨c, hc, hflag⟩
        · exact .inl hown
        · exact .inr ⟨.const c, hc, hflag⟩
      · refine .inr ⟨.ty t, ht, ?_⟩
        rw [Arg.map_ty, Arg.flags, h.inherited]
        exact (ih t ht).2 ⟨u, hu, hsets⟩

/-! ## Depth -/

/-- Whether there are a number of types inside each other, of which a type is the outermost. -/
inductive Nests : Ty → Nat → Prop
  | self (t : Ty) : Nests t 1
  | inside {t u : Ty} {k : Nat} (h : .ty u ∈ t.node.slots) (hu : Nests u k) : Nests t (k + 1)

/-- Types nest at most as deep as the depth says. -/
theorem Nests.le_depth {t : Ty} {k : Nat} (h : t.Nests k) : k ≤ t.depth := by
  induction h with
  | self t => exact t.one_le_depth
  | @inside t u k hmem _ ih =>
    -- the depth of a layer exceeds that of each child
    have hall := depth_of_le_iff (n := t.node) (d := t.depth - 1)
    have hone := t.one_le_depth
    rw [of_node, Nat.sub_add_cancel hone] at hall
    have hu := hall.1 (Nat.le_refl _) u hmem
    omega

/-- Types nest as deep as the depth says. -/
theorem nests_depth (t : Ty) : t.Nests t.depth := by
  induction t using Ty.ind with
  | layer n ih =>
    obtain hone | hmore : (of n).depth = 1 ∨ 2 ≤ (of n).depth := by
      have := (of n).one_le_depth
      omega
    · rw [hone]
      exact .self _
    · -- if no child were as deep as the layer less one, the layer would not be that deep
      obtain ⟨d, hd⟩ : ∃ d, (of n).depth = d + 2 := ⟨_, (Nat.sub_add_cancel hmore).symm⟩
      have hexists : ∃ t, .ty t ∈ n.slots ∧ t.depth = d + 1 := by
        by_contra hnone
        have hle : (of n).depth ≤ d + 1 := depth_of_le_iff.2 fun t ht => by
          have hmax := depth_of_le_iff.1 (Nat.le_of_eq hd) t ht
          have hne : t.depth ≠ d + 1 := fun h => hnone ⟨t, ht, h⟩
          omega
        omega
      obtain ⟨t, ht, hdepth⟩ := hexists
      have hnests := ih t ht
      rw [hdepth] at hnests
      rw [hd]
      exact .inside (by rwa [node_of]) hnests

/-- The depth of a type is the greatest number of types inside each other. -/
theorem isGreatest_depth (t : Ty) : IsGreatest {k | t.Nests k} t.depth :=
  ⟨t.nests_depth, fun _ h => h.le_depth⟩

end Ty

/-! ## Length -/

/-- The number of nodes in a slot, where those in types are known. -/
def Arg.count : Arg Nat → Nat
  | .ty k => k
  | .const _ => 1

/-- The number of type and constant nodes of a type, written out: one for the type itself and those
    of its slots. -/
def Ty.nodeCount : Ty → Nat := Ty.fold fun n => (n.slots.map Arg.count).foldl (· + ·) 1

/-- A layer counts its own node and those of its slots. -/
theorem Ty.nodeCount_of (n : TyNode Ty) :
    (of n).nodeCount = (n.slots.map fun a => (a.map nodeCount).count).foldl (· + ·) 1 := by
  rw [nodeCount, fold_of, TyNode.slots_map, List.map_map]
  rfl

/-- A sum that stops stays the same if its members are stopped before. -/
theorem foldl_satAdd_min {α : Type} {f g : α → Nat} (as : List α)
    (h : ∀ a ∈ as, f a = min (g a) maxLength) {k l : Nat} (hkl : k = min l maxLength) :
    (as.map f).foldl satAdd k = min ((as.map g).foldl (· + ·) l) maxLength := by
  induction as generalizing k l with
  | nil => exact hkl
  | cons a as ih =>
    refine ih (fun b hb => h b (List.mem_cons_of_mem a hb)) ?_
    -- one addition is cut where the sum is, since a cut sum only grows
    simp only [satAdd_eq_min, hkl, h a List.mem_cons_self]
    omega

/-- The length of a type is the number of its nodes, stopped at the greatest number of 64 bits. -/
theorem Ty.length_eq_min (t : Ty) : t.length = min t.nodeCount maxLength := by
  induction t using Ty.ind with
  | layer n ih =>
    -- the lengths of the children are cut already
    rw [length, measure_of, Measure.ofNode, TyNode.slots_map, nodeCount_of]
    simp only [List.map_map]
    refine foldl_satAdd_min n.slots (fun a ha => ?_) (k := 1) (l := 1) (by decide)
    cases a with
    | ty t => exact ih t ha
    | const c => exact (by decide : 1 = min 1 maxLength)

/-! ## The measure as a whole -/

/-- What a measure has to say of a type. -/
structure Measure.Describes (m : Measure) (t : Ty) : Prop where
  hasTyParam : m.flags.hasTyParam = true ↔ ∃ i, t.Contains (.param i)
  hasConstParam : m.flags.hasConstParam = true ↔
    ∃ u i, t.Contains u ∧ .const (.param i) ∈ u.node.slots
  hasDyn : m.flags.hasDyn = true ↔ ∃ trait, t.Contains (.dyn trait)
  hasBox : m.flags.hasBox = true ↔ ∃ u, t.Contains (.box u)
  hasAdt : m.flags.hasAdt = true ↔ ∃ x : ItemId × Slots, t.Contains (.nominal .adt x.1 x.2)
  hasClosure : m.flags.hasClosure = true ↔
    ∃ x : ItemId × Slots, t.Contains (.nominal .closure x.1 x.2)
  isPrimitive : m.flags.isPrimitive = true ↔ (∃ p, t = .prim p) ∨ t = .unit
  depth : IsGreatest {k | t.Nests k} m.depth
  length : m.length = min t.nodeCount maxLength

namespace Ty

/-- A flag that no constant sets is set exactly if a type of the shape that sets it occurs. -/
theorem flag_iff_of_shape {flag : Flags → Bool} (h : Flags.IsInherited flag)
    (hconst : ∀ c, flag (Arg.const c).flags = false) {ι : Type} {shape : ι → Ty}
    (hown : ∀ u : Ty, flag u.node.ownFlags = true ↔ ∃ x, u = shape x) (t : Ty) :
    flag t.flags = true ↔ ∃ x, t.Contains (shape x) := by
  -- No constant sets the flag, so only a layer of that shape does.
  have hsets : ∀ u : Ty, u.node.Sets flag ↔ ∃ x, u = shape x := by
    intro u
    rw [TyNode.Sets, hown]
    refine or_iff_left ?_
    rintro ⟨c, -, hc⟩
    exact Bool.false_ne_true ((hconst c).symm.trans hc)
  rw [flag_iff h]
  constructor
  · rintro ⟨u, hu, hsetsu⟩
    obtain ⟨x, rfl⟩ := (hsets u).1 hsetsu
    exact ⟨x, hu⟩
  · rintro ⟨x, hx⟩
    exact ⟨shape x, hx, (hsets _).2 ⟨x, rfl⟩⟩

/-- Which types set which flags by themselves. -/
structure OwnFlags (u : Ty) (f : Flags) : Prop where
  hasTyParam : f.hasTyParam = true ↔ ∃ i, u = .param i
  hasConstParam : f.hasConstParam = false
  hasDyn : f.hasDyn = true ↔ ∃ trait, u = .dyn trait
  hasBox : f.hasBox = true ↔ ∃ v, u = .box v
  hasAdt : f.hasAdt = true ↔ ∃ x : ItemId × Slots, u = .nominal .adt x.1 x.2
  hasClosure : f.hasClosure = true ↔ ∃ x : ItemId × Slots, u = .nominal .closure x.1 x.2
  isPrimitive : f.isPrimitive = true ↔ (∃ p, u = .prim p) ∨ u = .unit

/-- The flags of a layer are as its constructor says. -/
theorem ownFlags_node (u : Ty) : u.OwnFlags u.node.ownFlags := by
  cases u with
  | tuple ts => cases ts <;> constructor <;> simp [node, TyNode.ownFlags, Tys.toList]
  | wrap w t => cases w <;> constructor <;> simp [node, TyNode.ownFlags]
  | nominal k i as => cases k <;> constructor <;> simp [node, TyNode.ownFlags]
  | _ => constructor <;> simp [node, TyNode.ownFlags]

/-- A constant parameter occurs in a type exactly if its flag is set. -/
theorem hasConstParam_iff (t : Ty) : t.flags.hasConstParam = true ↔
    ∃ u i, t.Contains u ∧ .const (.param i) ∈ u.node.slots := by
  rw [flag_iff ⟨fun _ _ => rfl, fun _ => rfl⟩]
  refine exists_congr fun u => ?_
  rw [exists_and_left]
  refine and_congr_right fun _ => ?_
  rw [TyNode.Sets, u.ownFlags_node.hasConstParam]
  -- No layer sets this flag itself, and of the constants only a parameter does.
  constructor
  · rintro (h | ⟨c, hc, hflag⟩)
    · exact absurd h Bool.false_ne_true
    · cases c with
      | value n => exact absurd hflag Bool.false_ne_true
      | param i => exact ⟨i, hc⟩
  · rintro ⟨i, hi⟩
    exact .inr ⟨.param i, hi, rfl⟩

/-- Being built in is not passed on: it is a matter of the outermost layer. -/
theorem isPrimitive_iff (t : Ty) :
    t.flags.isPrimitive = true ↔ (∃ p, t = .prim p) ∨ t = .unit := by
  rw [← t.ownFlags_node.isPrimitive]
  conv_lhs => rw [← t.of_node]
  rw [flag_of_iff fun _ _ => rfl]
  -- no slot hands this flag on, so it is the layer's own
  refine or_iff_left ?_
  rintro ⟨a, -, ha⟩
  cases a with
  | ty u => exact absurd ha Bool.false_ne_true
  | const c => cases c <;> exact absurd ha Bool.false_ne_true

/-- The measure that a type carries says of it what it has to. -/
theorem describes_measure (t : Ty) : t.measure.Describes t where
  hasTyParam := flag_iff_of_shape ⟨fun _ _ => rfl, fun _ => rfl⟩ (fun c => by cases c <;> rfl)
    (fun u => u.ownFlags_node.hasTyParam) t
  hasConstParam := t.hasConstParam_iff
  hasDyn := flag_iff_of_shape ⟨fun _ _ => rfl, fun _ => rfl⟩ (fun c => by cases c <;> rfl)
    (fun u => u.ownFlags_node.hasDyn) t
  hasBox := flag_iff_of_shape ⟨fun _ _ => rfl, fun _ => rfl⟩ (fun c => by cases c <;> rfl)
    (fun u => u.ownFlags_node.hasBox) t
  hasAdt := flag_iff_of_shape ⟨fun _ _ => rfl, fun _ => rfl⟩ (fun c => by cases c <;> rfl)
    (fun u => u.ownFlags_node.hasAdt) t
  hasClosure := flag_iff_of_shape ⟨fun _ _ => rfl, fun _ => rfl⟩ (fun c => by cases c <;> rfl)
    (fun u => u.ownFlags_node.hasClosure) t
  isPrimitive := t.isPrimitive_iff
  depth := t.isGreatest_depth
  length := t.length_eq_min

end Ty

end Monomorph
