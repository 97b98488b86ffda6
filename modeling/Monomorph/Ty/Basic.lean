import Monomorph.Ty.Fingerprint
import Monomorph.Ty.Measure

/-!
# Types

A type is a layer whose children are types: `Ty.of` puts a layer on top of types, `Ty.node` takes
the top layer off, and the two undo each other. The lists inside a type are inductive types of
their own, `Tys` and `Slots`, so that every type can carry its measure: `Ty.measure` is a function
of the structure alone, but it is computed once when the type is made and looked up from then on.
The fingerprint of a type is carried along in the same way. A type may contain the same part in so
many places that its written-out form would be huge; what depends on the measure is still quick to
find.

Functions on types are written for one layer and carried through a whole type by `Ty.fold`, and
`Ty.ind` is the matching way to prove things about them.
-/

namespace Monomorph

mutual

/-- A type. -/
inductive Ty where
  | prim (p : Prim)
  | tuple (elems : Tys)
  | array (elem : Ty) (len : Const)
  /-- A type around one other type: a slice, a pointer or a box. -/
  | wrap (w : Wrapper) (inner : Ty)
  /-- A type that an item of the program stands for, with arguments for the item's parameters. -/
  | nominal (k : Nominal) (item : ItemId) (args : Slots)
  /-- A trait object. -/
  | dyn (trait : ItemId)
  | fnPtr (inputs : Tys) (output : Ty)
  /-- The type parameter at a position of the enclosing generics. -/
  | param (index : Nat)
with
  /-- The measure of a type. -/
  @[computed_field] measure : Ty → Measure
    | .prim p => .ofNode (.prim p)
    | .tuple ts => .ofNode (.tuple ts.measures)
    | .array t n => .ofNode (.array t.measure n)
    | .wrap w t => .ofNode (.wrap w t.measure)
    | .nominal k i as => .ofNode (.nominal k i as.measures)
    | .dyn i => .ofNode (.dyn i)
    | .fnPtr ins out => .ofNode (.fnPtr ins.measures out.measure)
    | .param i => .ofNode (.param i)
  /-- The fingerprint of a type. -/
  @[computed_field] fingerprint : Ty → Fingerprint
    | .prim p => .mix 1 p.fingerprint
    | .tuple ts => .mix 2 ts.fingerprint
    | .array t n => .mix 3 (.mix t.fingerprint n.fingerprint)
    | .wrap w t => .mix 4 (.mix w.fingerprint t.fingerprint)
    | .nominal k i as => .mix 5 (.mix k.fingerprint (.mix i.toUInt64 as.fingerprint))
    | .dyn i => .mix 6 i.toUInt64
    | .fnPtr ins out => .mix 7 (.mix ins.fingerprint out.fingerprint)
    | .param i => .mix 8 i.toUInt64

/-- A list of types inside a type. -/
inductive Tys where
  | nil
  | cons (head : Ty) (tail : Tys)
with
  /-- The measures of the types. -/
  @[computed_field] measures : Tys → List Measure
    | .nil => []
    | .cons t ts => t.measure :: ts.measures
  /-- The fingerprint of the list. -/
  @[computed_field] fingerprint : Tys → Fingerprint
    | .nil => 0
    | .cons t ts => .mix t.fingerprint ts.fingerprint

/-- A list of arguments inside a type. -/
inductive Slots where
  | nil
  | ty (head : Ty) (tail : Slots)
  | const (head : Const) (tail : Slots)
with
  /-- The measures of the types in the slots. -/
  @[computed_field] measures : Slots → List (Arg Measure)
    | .nil => []
    | .ty t as => .ty t.measure :: as.measures
    | .const c as => .const c :: as.measures
  /-- The fingerprint of the list. -/
  @[computed_field] fingerprint : Slots → Fingerprint
    | .nil => 0
    | .ty t as => .mix t.fingerprint as.fingerprint
    | .const c as => .mix c.fingerprint as.fingerprint

end

/-- A list of generic arguments, one slot for each parameter. -/
abbrev Args := List (Arg Ty)

namespace Tys

/-- The types of a list, as a list inside a type. -/
def ofList : List Ty → Tys
  | [] => nil
  | t :: ts => cons t (ofList ts)

/-- The types of the list. -/
def toList : Tys → List Ty
  | nil => []
  | cons t ts => t :: toList ts

/-- A list of types is read back from its nested form. -/
@[simp] theorem toList_ofList (ts : List Ty) : (ofList ts).toList = ts := by
  induction ts with
  | nil => rfl
  | cons t ts ih => simp [ofList, toList, ih]

/-- A nested list of types is built back from its types. -/
@[simp] theorem ofList_toList : ∀ ts : Tys, ofList ts.toList = ts
  | nil => rfl
  | cons t ts => by simp [ofList, toList, ofList_toList ts]

/-- A list of types is measured type by type. -/
theorem measures_ofList (ts : List Ty) : (ofList ts).measures = ts.map Ty.measure := by
  induction ts with
  | nil => rfl
  | cons t ts ih => simp [ofList, measures, ih]

/-- The fingerprint of a list of types is mixed from those of its types. -/
theorem fingerprint_ofList (ts : List Ty) :
    (ofList ts).fingerprint = .mixAll (ts.map Ty.fingerprint) := by
  induction ts with
  | nil => rfl
  | cons t ts ih => simp [ofList, fingerprint, Fingerprint.mixAll, ih]

end Tys

namespace Slots

/-- The arguments of a list, as a list inside a type. -/
def ofList : Args → Slots
  | [] => nil
  | .ty t :: as => ty t (ofList as)
  | .const c :: as => const c (ofList as)

/-- The arguments of the list. -/
def toList : Slots → Args
  | nil => []
  | ty t as => .ty t :: toList as
  | const c as => .const c :: toList as

/-- A list of arguments is read back from its nested form. -/
@[simp] theorem toList_ofList (as : Args) : (ofList as).toList = as := by
  induction as with
  | nil => rfl
  | cons a as ih => cases a <;> simp [ofList, toList, ih]

/-- A nested list of arguments is built back from its arguments. -/
@[simp] theorem ofList_toList : ∀ as : Slots, ofList as.toList = as
  | nil => rfl
  | ty t as => by simp [ofList, toList, ofList_toList as]
  | const c as => by simp [ofList, toList, ofList_toList as]

/-- A list of arguments is measured slot by slot. -/
theorem measures_ofList (as : Args) :
    (ofList as).measures = as.map (Arg.map Ty.measure) := by
  induction as with
  | nil => rfl
  | cons a as ih => cases a <;> simp [ofList, measures, ih]

/-- The fingerprint of a list of arguments is mixed from those of its slots. -/
theorem fingerprint_ofList (as : Args) :
    (ofList as).fingerprint = .mixAll (as.map (Arg.fingerprint Ty.fingerprint)) := by
  induction as with
  | nil => rfl
  | cons a as ih =>
    cases a <;> simp [ofList, fingerprint, Fingerprint.mixAll, Arg.fingerprint, ih]

end Slots

namespace Ty

/-- The type with a layer on top. -/
def of : TyNode Ty → Ty
  | .prim p => prim p
  | .tuple ts => tuple (.ofList ts)
  | .array t n => array t n
  | .wrap w t => wrap w t
  | .nominal k i as => nominal k i (.ofList as)
  | .dyn i => dyn i
  | .fnPtr ins out => fnPtr (.ofList ins) out
  | .param i => param i

/-- The layer at the top of a type. -/
def node : Ty → TyNode Ty
  | prim p => .prim p
  | tuple ts => .tuple ts.toList
  | array t n => .array t n
  | wrap w t => .wrap w t
  | nominal k i as => .nominal k i as.toList
  | dyn i => .dyn i
  | fnPtr ins out => .fnPtr ins.toList out
  | param i => .param i

/-- The outermost layer is read back from the type built on it. -/
@[simp] theorem node_of (n : TyNode Ty) : (of n).node = n := by cases n <;> simp [of, node]

/-- A type is built back from its outermost layer. -/
@[simp] theorem of_node (t : Ty) : of t.node = t := by cases t <;> simp [of, node]

/-- Types are equal when their outermost layers are. -/
theorem of_inj {m n : TyNode Ty} : of m = of n ↔ m = n :=
  ⟨fun h => by rw [← node_of m, h, node_of], congrArg of⟩

/-- The empty tuple. -/
abbrev unit : Ty := tuple .nil

/-- A tuple of types. -/
abbrev tupleOf (ts : List Ty) : Ty := of (.tuple ts)

/-- An owning pointer. -/
abbrev box (inner : Ty) : Ty := wrap .box inner

/-- A structure or enumeration with its arguments. -/
abbrev adt (item : ItemId) (args : Args) : Ty := of (.nominal .adt item args)

instance : Inhabited Ty := ⟨unit⟩

/-- Whether a type is built in: it has no children and never needs a look inside. -/
def isPrimitive : Ty → Bool
  | prim _ | tuple .nil => true
  | _ => false

/-! ## The measure and the fingerprint -/

/-- A type is measured from its own layer and the measures of its parts. -/
theorem measure_of (n : TyNode Ty) : (of n).measure = Measure.ofNode (n.map measure) := by
  cases n <;> simp [of, measure, TyNode.map, Tys.measures_ofList, Slots.measures_ofList]

/-- Putting a layer on top of types makes the fingerprint of the whole from theirs. -/
theorem fingerprint_of (n : TyNode Ty) : (of n).fingerprint = n.fingerprint Ty.fingerprint := by
  cases n <;>
    simp [of, fingerprint, TyNode.fingerprint, Tys.fingerprint_ofList, Slots.fingerprint_ofList]

/-- Which constructs occur in a type. -/
def flags (t : Ty) : Flags := t.measure.flags

/-- The number of type and constant nodes, at most `maxLength`. -/
def length (t : Ty) : Nat := t.measure.length

/-- The depth of nesting. -/
def depth (t : Ty) : Nat := t.measure.depth

/-- Whether a type or constant parameter occurs in a type. -/
def hasParams (t : Ty) : Bool := t.flags.hasParams

/-- The positions of the parameters mentioned in a type, a set. -/
def indices (t : Ty) : List Nat := t.measure.params

end Ty

/-! ## Folding a type -/

section Fold

variable {α : Type} (alg : TyNode α → α)

mutual

/-- Collapses a type from the leaves up, one layer at a time. -/
def Ty.fold : Ty → α
  | .prim p => alg (.prim p)
  | .tuple ts => alg (.tuple ts.fold)
  | .array t n => alg (.array t.fold n)
  | .wrap w t => alg (.wrap w t.fold)
  | .nominal k i as => alg (.nominal k i as.fold)
  | .dyn i => alg (.dyn i)
  | .fnPtr ins out => alg (.fnPtr ins.fold out.fold)
  | .param i => alg (.param i)

/-- Folds each type of a list. -/
def Tys.fold : Tys → List α
  | .nil => []
  | .cons t ts => t.fold :: ts.fold

/-- Folds the type in each slot of a list. -/
def Slots.fold : Slots → List (Arg α)
  | .nil => []
  | .ty t as => .ty t.fold :: as.fold
  | .const c as => .const c :: as.fold

end

/-- A list of types is folded type by type. -/
theorem Tys.fold_ofList (ts : List Ty) : (Tys.ofList ts).fold alg = ts.map (Ty.fold alg) := by
  induction ts with
  | nil => rfl
  | cons t ts ih => simp [Tys.ofList, Tys.fold, ih]

/-- A list of arguments is folded slot by slot. -/
theorem Slots.fold_ofList (as : Args) :
    (Slots.ofList as).fold alg = as.map (Arg.map (Ty.fold alg)) := by
  induction as with
  | nil => rfl
  | cons a as ih => cases a <;> simp [Slots.ofList, Slots.fold, ih]

/-- The equation of `fold`: fold the children, then the layer. -/
theorem Ty.fold_of (n : TyNode Ty) : (Ty.of n).fold alg = alg (n.map (Ty.fold alg)) := by
  cases n <;> simp [Ty.of, Ty.fold, TyNode.map, Tys.fold_ofList, Slots.fold_ofList]

end Fold

/-! ## Induction -/

/-- The step of an induction on types: what holds of all children of a layer holds of the type
    under it. -/
private abbrev Ty.Inductive (P : Ty → Prop) : Prop :=
  ∀ n : TyNode Ty, (∀ t, Arg.ty t ∈ n.slots → P t) → P (.of n)

mutual

/-- A property that every layer hands on from its parts holds of every type. -/
private theorem Ty.ind_ty {P : Ty → Prop} (h : Ty.Inductive P) : ∀ t : Ty, P t
  | .prim p => h (.prim p) fun t ht => by simp [TyNode.slots] at ht
  | .tuple ts => by
    simpa [Ty.of] using h (.tuple ts.toList) fun t ht =>
      ts.ind_mem h t (by simpa [TyNode.slots] using ht)
  | .array u n => h (.array u n) fun t ht => by
    have : t = u := by simpa [TyNode.slots] using ht
    exact this ▸ Ty.ind_ty h u
  | .wrap w u => h (.wrap w u) fun t ht => by
    have : t = u := by simpa [TyNode.slots] using ht
    exact this ▸ Ty.ind_ty h u
  | .nominal k i as => by
    simpa [Ty.of] using h (.nominal k i as.toList) fun t ht =>
      as.ind_mem h t (by simpa [TyNode.slots] using ht)
  | .dyn i => h (.dyn i) fun t ht => by simp [TyNode.slots] at ht
  | .fnPtr ins out => by
    simpa [Ty.of] using h (.fnPtr ins.toList out) fun t ht => by
      have : t ∈ ins.toList ∨ t = out := by simpa [TyNode.slots] using ht
      exact this.elim (ins.ind_mem h t) fun e => e ▸ Ty.ind_ty h out
  | .param i => h (.param i) fun t ht => by simp [TyNode.slots] at ht

/-- A property that every layer hands on holds of every type in a list. -/
private theorem Tys.ind_mem {P : Ty → Prop} (h : Ty.Inductive P) :
    ∀ (ts : Tys) (t : Ty), t ∈ ts.toList → P t
  | .nil, _, ht => by simp [Tys.toList] at ht
  | .cons u us, t, ht =>
    (List.mem_cons.1 ht).elim (fun e => e ▸ Ty.ind_ty h u) (us.ind_mem h t)

/-- A property that every layer hands on holds of every type among arguments. -/
private theorem Slots.ind_mem {P : Ty → Prop} (h : Ty.Inductive P) :
    ∀ (as : Slots) (t : Ty), Arg.ty t ∈ as.toList → P t
  | .nil, _, ht => by simp [Slots.toList] at ht
  | .ty u as, t, ht =>
    (List.mem_cons.1 ht).elim (fun e => by cases e; exact Ty.ind_ty h _) (as.ind_mem h t)
  | .const _ as, t, ht =>
    (List.mem_cons.1 ht).elim (fun e => by cases e) (as.ind_mem h t)

end

/-- To prove something of every type, prove it of a layer whose children have it. -/
theorem Ty.ind {P : Ty → Prop}
    (layer : ∀ n : TyNode Ty, (∀ t, Arg.ty t ∈ n.slots → P t) → P (.of n)) (t : Ty) : P t :=
  Ty.ind_ty layer t

namespace Args

/-- The measures of the slots of an argument list. -/
def measures (args : Args) : List (Arg Measure) := args.map (Arg.map Ty.measure)

/-- A number made from the slots of an argument list. -/
def fingerprint (args : Args) : Fingerprint :=
  .mixAll (args.map (Arg.fingerprint Ty.fingerprint))

/-- Whether a parameter occurs in some slot. -/
def hasParams (args : Args) : Bool := (measures args).any fun a => a.flags.hasParams

/-- The number of nodes of all slots together, at most `maxLength`. -/
def nodeCount (args : Args) : Nat := ((measures args).map Arg.length).foldl satAdd 0

/-- The depth of the deepest slot; zero for an empty list. -/
def nesting (args : Args) : Nat := ((measures args).map Arg.depth).foldl max 0

/-- The positions of the parameters mentioned in the slots, a set. -/
def indices (args : Args) : List Nat := Positions.unionAll [] ((measures args).map Arg.params)

/-- No argument counts no node. -/
@[simp] theorem nodeCount_nil : nodeCount [] = 0 := rfl

/-- No argument nests nothing. -/
@[simp] theorem nesting_nil : nesting [] = 0 := rfl

end Args

example : (Ty.tupleOf [.box .unit, .param 2]).measure =
    ⟨{ hasTyParam := true, hasBox := true }, 4, 3, [2]⟩ := by decide

end Monomorph
