import Monomorph.Program.Registry
import Monomorph.Ty.Render

/-!
# Programs

A program is an array of items from all crates, in the order of declaration, with the crates and
module regions they lie in. What belongs to a trait or to a block that implements one is entered
into a registry, and a program carries the proof that its registry is the one of its items, so the
two cannot disagree.

Items are looked up by position. A position past the end gives an item without content; programs
made by `Program.build` never refer to one as long as the declarations do not.
-/

namespace Monomorph

/-- A whole program. -/
structure Program where
  /-- The names of the crates. The first is the one being compiled. -/
  crates : List String
  /-- The root region of each crate. -/
  crateRegions : List RegionId
  /-- The paths of the regions. -/
  regions : List String
  items : Array Item := #[]
  /-- What has been entered about traits. -/
  registry : Registry := .ofItems items
  /-- Every item has been entered, in the order of declaration. -/
  registered : registry = .ofItems items := by rfl
  /-- The items the program is started at. -/
  entries : List ItemId := []
  /-- The methods to run when values of certain types are dropped, the newest first. -/
  dropMethods : List (ItemId × ItemId) := []

namespace Program

variable (p : Program)

/-- The item at a position. -/
def item (i : ItemId) : Item := p.items[i]?.getD default

/-- The positions of all items. -/
def itemIds : List ItemId := List.range p.items.size

/-- The name of a crate. -/
def crateName (c : CrateId) : String := p.crates[c]?.getD ""

/-- The name of the crate being compiled. -/
def localName : String := p.crateName localCrate

/-- The root region of a crate. -/
def crateRegion (c : CrateId) : RegionId := p.crateRegions[c]?.getD 0

/-- The path of a region. -/
def regionName (r : RegionId) : String := p.regions[r]?.getD ""

/-- The first item of a crate with a given path. -/
def find? (c : CrateId) (path : String) : Option ItemId :=
  p.items.findIdx? fun it => it.provenance.origin == c && it.path == path

/-- The method to run when a value of a type is dropped, if the type has one. -/
def dropMethod? (adt : ItemId) : Option ItemId := p.dropMethods.lookup adt

/-- The positions of the items that have a property, in the order of declaration. -/
def itemsWhere (f : Item → Bool) : List ItemId := p.itemIds.filter fun i => f (p.item i)

/-- The methods declared in a trait, in the order of declaration. -/
def traitMethods (trait : ItemId) : List ItemId :=
  -- an item that is no trait has no methods, even if some were declared for it
  match (p.item trait).kind with
  | .trait => p.registry.methodsOf trait
  | _ => []

/-- The pattern for which an item implements a trait, if it does. -/
def implPattern? (trait : ItemId) (i : ItemId) : Option Ty :=
  match (p.item i).kind with
  | .impl tr pattern => if tr = trait then some pattern else none
  | _ => none

/-- The blocks that implement a trait, in the order of declaration. -/
def impls (trait : ItemId) : List ItemId := p.registry.implsOf trait

/-- The method that a block has for a method of its trait: the last one declared. -/
def implMethod? (impl method : ItemId) : Option ItemId := p.registry.implMethod? impl method

/-- Items by their paths and parameters by their positions. -/
def names : Names where
  item i := (p.item i).path
  param := Names.anonymousParam

/-- Items by their paths behind the names of their crates. -/
def qualifiedNames : Names where
  item i := p.crateName (p.item i).provenance.origin ++ "::" ++ (p.item i).path
  param := Names.anonymousParam

end Program

/-- The same names, with the parameters of an item called as it calls them. -/
def Names.withGenerics (names : Names) (g : Generics) : Names where
  item := names.item
  -- a position past the item's own parameters keeps its anonymous name
  param i := match g.params[i]? with
    | some param => param.name
    | none => names.param i

namespace Program

variable (p : Program)

/-- An item with arguments, as a text. -/
def applied (i : ItemId) (args : Args) : String :=
  (p.item i).path ++ args.text (p.names.withGenerics (p.item i).generics)

/-- A position past the end stands for an item without content. -/
theorem item_eq_default {i : ItemId} (h : ¬ i < p.items.size) : p.item i = default := by
  simp [item, Nat.le_of_not_lt h]

/-- The items with a property are those of the program that have it. -/
theorem mem_itemsWhere {f : Item → Bool} {i : ItemId} :
    i ∈ p.itemsWhere f ↔ i < p.items.size ∧ f (p.item i) = true := by
  simp [itemsWhere, itemIds]

end Program

end Monomorph
