import Monomorph.Program.Basic
import Monomorph.Unused.Set

/-!
# Which parameters a body uses

A parameter of an item is used when it is mentioned where generated code could depend on it: in
the type of a local or of an operand, or in the arguments of a function that is named. Closures
inside the item are looked at more closely: an argument they do not use themselves is not used by
handing it over. Last, a requirement on the parameters ties them together: if one that it mentions
is used, all are.

The sets of the closures are an input here; `Monomorph.Unused.Analyzer` supplies them.
-/

namespace Monomorph

namespace ParamSet

/-- Drops the positions of a group once one of them is no member. -/
def tie (s : ParamSet) (group : List Nat) : ParamSet :=
  -- one that is used makes the others used
  if group.any fun i => !s.contains i then s.eraseAll group else s

/-- Ties every group, one after the other. -/
def tieAll (s : ParamSet) (groups : List (List Nat)) : ParamSet := groups.foldl tie s

/-- Ties the groups until nothing changes. A round that changes anything settles at least one
    group for good, so as many rounds as there are groups are enough. -/
def settle (s : ParamSet) (groups : List (List Nat)) : ParamSet :=
  groups.foldl (fun s _ => s.tieAll groups) s

/-- Erasing a list of positions leaves the others. -/
theorem contains_eraseAll (s : ParamSet) (is : List Nat) (i : Nat) :
    (s.eraseAll is).contains i = (s.contains i && decide (i ∉ is)) := by
  induction is generalizing s with
  | nil => simp [eraseAll]
  | cons j is ih =>
    rw [eraseAll, List.foldl_cons, ← eraseAll, ih, contains_erase]
    by_cases h : i = j <;> simp [h]

end ParamSet

/-- Answers for the closures inside an item which of their parameters are unused. -/
abbrev ChildSets := ItemId → Option ParamSet

/-- The positions mentioned in the arguments of a call. Where the callee is a closure of the same
    item, only the arguments it uses count. -/
def callIndices (children : ChildSets) (callee : ItemId) (args : Args) : List Nat :=
  match children callee with
  | none => args.indices
  | some unused =>
    -- the closure's own parameter at the place of an argument decides
    (args.zipIdx.filter fun a => !unused.contains a.2).flatMap fun a => Args.indices [a.1]

/-- The positions that an operation uses. -/
def Action.indices (children : ChildSets) : Action → List Nat
  | .call _ callee args => callIndices children callee args
  -- a static is named without arguments
  | .staticRef _ => []
  | .drop t | .layout _ t | .use t => t.indices
  | .unsize source target => source.indices ++ target.indices

/-- The positions that a body uses. -/
def Body.indices (children : ChildSets) (b : Body) : List Nat :=
  b.locals.flatMap Ty.indices ++ b.ops.flatMap fun op => op.action.indices children

/-- The positions that a requirement ties together. -/
def Predicate.indices (pr : Predicate) : List Nat := pr.subject.indices ++ pr.args.indices

/-- The unused parameters of an item. Without a body nothing is known and all count as used. -/
def Item.unusedParams (children : ChildSets) (it : Item) : ParamSet :=
  match it.body with
  | none => .empty
  | some b =>
    -- all are taken for unused first, and what is mentioned is taken out
    ((ParamSet.firstN it.generics.count).eraseAll (b.indices children)).settle
      (it.predicates.map Predicate.indices)

/-- Whether an item is a closure inside the item at a position. -/
def Item.isClosureIn (parent : ItemId) (it : Item) : Bool :=
  it.kind == .closure && it.generics.parent == some parent

/-- Replaces every unused slot of an argument list by the placeholder of its parameter. -/
def Generics.normalize (g : Generics) (unused : ParamSet) (args : Args) : Args :=
  args.mapIdx fun i a => match g.params[i]? with
    | some param => if unused.contains i then param.kind.placeholder i else a
    -- an argument past the parameters stays as it is
    | none => a

/-- Normal form keeps the number of arguments. -/
@[simp] theorem Generics.length_normalize (g : Generics) (unused : ParamSet) (args : Args) :
    (g.normalize unused args).length = args.length := by
  simp [normalize]

/-- Where every parameter is used, arguments are in normal form already. -/
theorem Generics.normalize_empty (g : Generics) (args : Args) : g.normalize .empty args = args := by
  refine List.ext_getElem? fun i => ?_
  simp only [normalize, List.getElem?_mapIdx, ParamSet.contains_empty]
  cases args[i]? <;> cases g.params[i]? <;> simp

end Monomorph
