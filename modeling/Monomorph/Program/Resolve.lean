import Monomorph.Program.Basic
import Monomorph.Ty.Match

/-!
# Resolving a call

A call of a method of a trait means the method of whichever block implements the trait for the
first argument. The blocks are tried in the order of declaration and the first whose pattern
matches decides: if it has the method, that is called with the block's own arguments in place of
the implementing type, and if it has not, the trait's default is.
-/

namespace Monomorph

/-- What a call comes to. -/
inductive Resolution where
  /-- This item is called with these arguments. -/
  | item (i : ItemId) (args : Args)
  /-- The target is found in a table when the program runs. -/
  | virtual
  /-- Nothing implements the method for the arguments. -/
  | unresolved
  deriving DecidableEq

namespace Program

variable (p : Program)

/-- The arguments with which a block implements a trait for a type. -/
def implArgs? (trait : ItemId) (self : Ty) (impl : ItemId) : Option Args := do
  let pattern ← p.implPattern? trait impl
  pattern.matchArgs (p.item impl).generics.count self

/-- The first block that implements a trait for a type, and its arguments. -/
def selectImpl? (trait : ItemId) (self : Ty) : Option (ItemId × Args) :=
  (p.impls trait).findSome? fun impl => (p.implArgs? trait self impl).map (impl, ·)

/-- What a method of a trait comes to for an implementing type and the method's own arguments. -/
def resolveFor (trait method : ItemId) (self : Ty) (own : Args) : Resolution :=
  match p.selectImpl? trait self with
  | none => .unresolved
  | some (impl, args) =>
    match p.implMethod? impl method with
    | some target => .item target (args ++ own)
    | none =>
      -- a default body is called for the type itself, since it belongs to the trait
      if (p.item method).body.isSome then .item method (.ty self :: own) else .unresolved

/-- What a call of an item with arguments comes to. -/
def resolve (i : ItemId) (args : Args) : Resolution :=
  match (p.item i).kind with
  | .traitMethod trait =>
    match args with
    -- nothing can be said before the type is known
    | .ty (.param _) :: _ => .unresolved
    | .ty self :: own => if self = .dyn trait then .virtual else p.resolveFor trait i self own
    -- a method of a trait has the implementing type in front
    | _ => .unresolved
  | _ => .item i args

/-- An item that is no trait method is what a call of it reaches. -/
theorem resolve_of_not_traitMethod {i : ItemId} {args : Args}
    (h : ∀ trait, (p.item i).kind ≠ .traitMethod trait) : p.resolve i args = .item i args := by
  unfold resolve
  split
  · next trait hk => exact absurd hk (h trait)
  · rfl

end Program

end Monomorph
