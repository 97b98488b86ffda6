import Monomorph.Positions
import Monomorph.Ty.Node

/-!
# Measures of a type

What is known of a type without looking inside it again: which constructs occur in it, how many
nodes it has, how deep it is and which parameters it mentions. All this is computed one layer at a
time by `Measure.ofNode`, from the measures of the children, so that every type can carry its
measure along (`Monomorph.Ty.Basic`).

Lengths are 64-bit quantities: they stop growing at 2^64 - 1 and never wrap.
-/

namespace Monomorph

/-- The largest length that is told apart, the greatest number of 64 bits. -/
def maxLength : Nat := 0xffffffffffffffff

/-- Addition that stops at `maxLength`. -/
def satAdd (a b : Nat) : Nat := min (a + b) maxLength

/-- A saturating sum is the sum, cut at the largest length. -/
theorem satAdd_eq_min (a b : Nat) : satAdd a b = min (a + b) maxLength := rfl

/-- A running sum that stops at `maxLength` is the sum, stopped there. -/
theorem foldl_satAdd (ns : List Nat) (a : Nat) (ha : a ≤ maxLength) :
    ns.foldl satAdd a = min (ns.foldl (· + ·) a) maxLength := by
  rw [List.foldl_eq_foldr_reverse, List.foldl_eq_foldr_reverse]
  generalize ns.reverse = rest
  induction rest with
  | nil => exact (Nat.min_eq_left ha).symm
  | cons n rest ih =>
    rw [List.foldr_cons, List.foldr_cons, ih, satAdd_eq_min]
    omega

/-- Which constructs occur in a type. -/
structure Flags where
  hasTyParam : Bool := false
  hasConstParam : Bool := false
  hasDyn : Bool := false
  hasBox : Bool := false
  hasAdt : Bool := false
  hasClosure : Bool := false
  /-- The type is built in. Unlike the others this says nothing of the types around it. -/
  isPrimitive : Bool := false
  deriving DecidableEq, Repr

namespace Flags

/-- What occurs in either of two types. -/
def union (f g : Flags) : Flags where
  hasTyParam := f.hasTyParam || g.hasTyParam
  hasConstParam := f.hasConstParam || g.hasConstParam
  hasDyn := f.hasDyn || g.hasDyn
  hasBox := f.hasBox || g.hasBox
  hasAdt := f.hasAdt || g.hasAdt
  hasClosure := f.hasClosure || g.hasClosure
  isPrimitive := f.isPrimitive || g.isPrimitive

/-- What a type passes on to the types around it. -/
def inherited (f : Flags) : Flags := { f with isPrimitive := false }

/-- Whether a parameter of either sort occurs. -/
def hasParams (f : Flags) : Bool := f.hasTyParam || f.hasConstParam

/-- The names of the flags that are set. -/
def names (f : Flags) : List String :=
  ([(f.hasTyParam, "HAS_TY_PARAM"), (f.hasConstParam, "HAS_CONST_PARAM"), (f.hasDyn, "HAS_DYN"),
    (f.hasBox, "HAS_BOX"), (f.hasAdt, "HAS_ADT"), (f.hasClosure, "HAS_CLOSURE"),
    (f.isPrimitive, "IS_PRIMITIVE")].filter Prod.fst).map Prod.snd

end Flags

/-- What is known of a type without looking inside it. -/
structure Measure where
  flags : Flags
  /-- The number of type and constant nodes, at most `maxLength`. -/
  length : Nat
  /-- The depth of nesting: one for a type without children. -/
  depth : Nat
  /-- The positions of the parameters mentioned, a set. -/
  params : List Nat
  deriving DecidableEq, Repr

namespace TyNode

variable {α : Type}

/-- What a node adds by itself to the flags of what stands below it. -/
def ownFlags : TyNode α → Flags
  -- the empty tuple is built in, like what has a name of its own
  | prim _ | tuple [] => { isPrimitive := true }
  | tuple (_ :: _) | array .. | wrap (.slice) _ | wrap (.ref _) _ | wrap (.raw _) _ | fnPtr .. => {}
  | wrap .box _ => { hasBox := true }
  | nominal .adt _ _ => { hasAdt := true }
  | nominal .closure _ _ => { hasClosure := true }
  | nominal .fnDef _ _ => {}
  | dyn _ => { hasDyn := true }
  | param _ => { hasTyParam := true }

/-- The positions that a node mentions by itself. -/
def ownParams : TyNode α → List Nat
  | param i => [i]
  | _ => []

end TyNode

namespace Arg

/-- What a slot passes on to the node above it. -/
def flags : Arg Measure → Flags
  | ty m => m.flags.inherited
  | const (.param _) => { hasConstParam := true }
  | const (.value _) => {}

/-- The number of nodes in a slot; a constant is one node. -/
def length : Arg Measure → Nat
  | ty m => m.length
  | const _ => 1

/-- How deep a slot of an argument list is nested; a constant counts as one. -/
def depth : Arg Measure → Nat
  | ty m => m.depth
  | const _ => 1

/-- The positions mentioned in a slot. -/
def params : Arg Measure → List Nat
  | ty m => m.params
  | const (.param i) => [i]
  | const (.value _) => []

end Arg

namespace Measure

/-- The measure of a node from the measures of its children. -/
def ofNode (n : TyNode Measure) : Measure where
  flags := (n.slots.map Arg.flags).foldl Flags.union n.ownFlags
  length := (n.slots.map Arg.length).foldl satAdd 1
  -- a constant is no child, so it adds to the length and not to the depth
  depth := (n.children.map Measure.depth).foldl max 0 + 1
  params := Positions.unionAll n.ownParams (n.slots.map Arg.params)

end Measure

end Monomorph
