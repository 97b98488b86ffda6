import Monomorph.Ty.Table

/-!
# Putting arguments for parameters in a table

In a table a type is a handle, and parameters are replaced on the way down from handle to handle. A
type without parameters keeps its handle and is not looked at. A parameter becomes the handle in the
slot at its position. Any other layer is entered again over the handles that its children have
become, so that the table takes in what is new about the image, from the leaves up.

Fuel bounds how far down the way may lead. The depth of the type is enough, and what comes out is
what replacing the parameters of the type itself and entering the image gives
(`TyTable.Valid.substDown_eq`).
-/

namespace Monomorph

namespace TyTable

/-- What reads a table and adds to it, and may fail or run out of fuel. -/
abbrev Action := ExceptT SubstError (StateT TyTable Option)

/-- What the slot at a position holds. -/
def slotAt (args : List (Arg Handle)) (i : Nat) : Action (Arg Handle) :=
  match args[i]? with
  | some a => pure a
  | none => throw (.escaping i args.length)

/-- Replaces a constant that is a parameter. -/
def substConst (args : List (Arg Handle)) : Const → Action Const
  | .value n => pure (.value n)
  | .param i => do
    match ← slotAt args i with
    | .const c => return c
    | .ty _ => throw (.wrongKind i)

/-- Replaces the parameters of the type that a handle names, going down at most so many layers. -/
def substDown (args : List (Arg Handle)) : Nat → Handle → Action Handle
  | 0, _ => fun _ => none
  | fuel + 1, h => do
    let table ← get
    -- the flags are kept with the handle, so nothing is looked at in vain
    if (table.measure h).flags.hasParams then
      match table.nodeAt? h with
      | some (.param i) =>
        match ← slotAt args i with
        | .ty h => return h
        | .const _ => throw (.wrongKind i)
      | some node =>
        -- the children first: the layer is entered over the handles that they have become
        let node ← node.mapM (substDown args fuel) (substConst args)
        modifyGet (intern node)
      | none => fun _ => none
    else return h

/-- Replaces the parameters of the types in some slots, one after the other. -/
def substArgsDown (args : List (Arg Handle)) (fuel : Nat) (inner : List (Arg Handle)) :
    Action (List (Arg Handle)) :=
  inner.mapM (Arg.mapM (substDown args fuel) (substConst args))

end TyTable

end Monomorph
