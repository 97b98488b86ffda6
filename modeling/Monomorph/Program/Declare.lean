import Monomorph.Program.Basic

/-!
# Declaring a program

A program is built by a list of declarations, each of which adds to what is there or fills in a
part that was left open: items are declared first and may be given bodies and fields later, so
they can refer to each other in any way.

An item declared inside another one starts as a draft with the other's parameters, crate, region
and path; edits then change the draft before it becomes an item. No edit takes a parameter away or
changes the parent, so an item always begins with the parameters of its parent.

An item is entered into the registry when it is added. What is filled in later is not entered, so
the registry stays that of the items.
-/

namespace Monomorph

/-- What kind of item is declared, and where. -/
inductive Subject where
  | fn (name : String)
  | closure (parent : ItemId) (name : String)
  | static (name : String)
  | adt (name : String)
  | trait (name : String)
  | traitMethod (trait : ItemId) (name : String)
  /-- Its name is made from that of the trait and the number of blocks before it. -/
  | impl (trait : ItemId) (pattern : Ty)
  /-- Its name is that of the trait's method. -/
  | implMethod (impl method : ItemId)

/-- A change to an item while it is declared. -/
inductive Edit where
  /-- Moves the item to the root region of a crate. -/
  | crate (c : CrateId)
  | region (r : RegionId)
  | path (path : String)
  | visibility (v : Visibility)
  | inlinable
  | forced
  /-- Adds a parameter behind the others. -/
  | param (p : Param)
  | predicate (p : Predicate)
  | body (b : Body)
  /-- Sets the fields, where the item has any. -/
  | fields (ts : List Ty)
  | span (s : Span)

/-- An item that is being declared. Its region may still be open. -/
structure Draft where
  item : Item
  region : Option RegionId := none

/-- One step in building a program. -/
inductive Declaration where
  /-- Adds a crate with a root region of the same name. -/
  | crate (name : String)
  | region (path : String)
  | item (subject : Subject) (edits : List Edit)
  | body (item : ItemId) (b : Body)
  | fields (adt : ItemId) (ts : List Ty)
  /-- Sets the method to run when values of a type are dropped. -/
  | dropMethod (adt method : ItemId)
  | entry (item : ItemId)

namespace ItemKind

/-- Sets the fields, where there are any. -/
def withFields (ts : List Ty) : ItemKind → ItemKind
  | adt _ => adt ts
  | k => k

end ItemKind

namespace Item

/-- Gives the item a body in place of the one it may have. -/
def withBody (it : Item) (b : Body) : Item := { it with body := some b }

/-- Sets the fields, where the item has any. -/
def withFields (it : Item) (ts : List Ty) : Item := { it with kind := it.kind.withFields ts }

end Item

namespace Registry

/-- What is registered of an item does not depend on its body. -/
theorem add_withBody (r : Registry) (i : ItemId) (it : Item) (b : Body) :
    r.add i (it.withBody b) = r.add i it := rfl

/-- What is registered of an item does not depend on its fields. -/
theorem add_withFields (r : Registry) (i : ItemId) (it : Item) (ts : List Ty) :
    r.add i (it.withFields ts) = r.add i it := by
  rw [add, add, Item.withFields]
  cases it.kind <;> rfl

end Registry

namespace Draft

/-- The draft of an item that stands alone. -/
def ofName (name : String) (kind : ItemKind) : Draft :=
  { item := { name, path := name, kind } }

/-- The draft of an item inside another one. -/
def inside (parent : ItemId) (it : Item) (name : String) (kind : ItemKind) : Draft where
  item := {
    name
    path := it.path ++ "::" ++ name
    kind
    generics := {
      parent := some parent
      inherited := it.generics.count
      params := it.generics.params }
    provenance := {
      -- neither the visibility nor a forced symbol is handed on
      origin := it.provenance.origin
      inlinable := it.provenance.inlinable } }
  region := some it.region

/-- Adds a parameter behind the others. -/
def addParam (d : Draft) (param : Param) : Draft :=
  let g := d.item.generics
  { d with item := { d.item with generics := { g with params := g.params ++ [param] } } }

/-- Changes the provenance. -/
def mapProvenance (f : Provenance → Provenance) (d : Draft) : Draft :=
  { d with item := { d.item with provenance := f d.item.provenance } }

end Draft

namespace Program

variable (p : Program)

/-- The draft that a declaration starts from. -/
def draft : Subject → Draft
  | .fn name => .ofName name .fn
  | .closure parent name => .inside parent (p.item parent) name .closure
  | .static name => .ofName name .static
  | .adt name => .ofName name (.adt [])
  | .trait name => (Draft.ofName name .trait).addParam ⟨"Self", .type⟩
  | .traitMethod trait name => .inside trait (p.item trait) name (.traitMethod trait)
  | .impl trait pattern =>
    .ofName ("impl-" ++ (p.item trait).name ++ "-" ++ toString (p.impls trait).length)
      (.impl trait pattern)
  | .implMethod impl method =>
    .inside impl (p.item impl) (p.item method).name (.implMethod method)

/-- Changes a draft. -/
def edit (d : Draft) : Edit → Draft
  -- a region that was chosen before gives way to the crate's own
  | .crate c => { d.mapProvenance ({ · with origin := c }) with region := some (p.crateRegion c) }
  | .region r => { d with region := some r }
  | .path path => { d with item := { d.item with path } }
  | .visibility v => d.mapProvenance ({ · with visibility := v })
  | .inlinable => d.mapProvenance ({ · with inlinable := true })
  | .forced => d.mapProvenance ({ · with forced := true })
  | .param param => d.addParam param
  | .predicate pr => { d with item := { d.item with predicates := d.item.predicates ++ [pr] } }
  | .body b => { d with item := d.item.withBody b }
  | .fields ts => { d with item := d.item.withFields ts }
  | .span span => { d with item := { d.item with span } }

/-- The item that a draft becomes. A region left open is the root region of the crate. -/
def finish (d : Draft) : Item :=
  -- the crate is the last one chosen, so the region is looked up now
  { d.item with region := d.region.getD (p.crateRegion d.item.provenance.origin) }

/-- Adds an item. -/
def addItem (it : Item) : Program :=
  { p with
    items := p.items.push it
    registry := p.registry.add p.items.size it
    registered := by rw [Registry.ofItems_push, p.registered] }

/-- Changes the item at a position in a way that leaves alone what is entered about it. -/
def modifyItem (i : ItemId) (f : Item → Item)
    (hf : ∀ (r : Registry) j it, r.add j (f it) = r.add j it) : Program :=
  { p with
    items := p.items.modify i f
    registered := by rw [Registry.ofItems_modify hf, p.registered] }

/-- Only the new position gets the new item. -/
theorem item_addItem (it : Item) (i : ItemId) :
    (p.addItem it).item i = if i = p.items.size then it else p.item i := by
  simp only [item, addItem, Array.getElem?_push]
  split <;> rfl

/-- An item past the end cannot be changed. -/
theorem item_modifyItem {f : Item → Item}
    (hf : ∀ (r : Registry) j it, r.add j (f it) = r.add j it) (j i : ItemId) :
    (p.modifyItem j f hf).item i =
      if j = i ∧ i < p.items.size then f (p.item i) else p.item i := by
  simp only [item, modifyItem, Array.getElem?_modify]
  by_cases hi : i < p.items.size
  · -- a change at another position, or past the end, is none here
    by_cases hj : j = i <;> simp [hi, hj]
  · simp [hi]

/-- Adds a crate with a root region of the same name. -/
def addCrate (name : String) : Program :=
  { p with
    crates := p.crates ++ [name]
    crateRegions := p.crateRegions ++ [p.regions.length]
    regions := p.regions ++ [name] }

/-- Carries out one step. -/
def declare : Declaration → Program
  | .crate name => p.addCrate name
  | .region path => { p with regions := p.regions ++ [path] }
  | .item subject edits => p.addItem (p.finish (edits.foldl p.edit (p.draft subject)))
  | .body i b => p.modifyItem i (·.withBody b) fun r j it => r.add_withBody j it b
  | .fields i ts => p.modifyItem i (·.withFields ts) fun r j it => r.add_withFields j it ts
  | .dropMethod adt method => { p with dropMethods := (adt, method) :: p.dropMethods }
  | .entry i => { p with entries := p.entries ++ [i] }

/-- The program that has a local crate and nothing in it. -/
def start (localName : String) : Program :=
  addCrate { crates := [], crateRegions := [], regions := [] } localName

/-- The program that a list of declarations makes. -/
def build (localName : String) (ds : List Declaration) : Program :=
  ds.foldl declare (start localName)

/-- Without declarations the program is the one that building starts from. -/
@[simp] theorem build_nil (localName : String) : build localName [] = start localName := rfl

/-- The last declaration is made in the program that those before it build. -/
theorem build_concat (localName : String) (ds : List Declaration) (d : Declaration) :
    build localName (ds ++ [d]) = (build localName ds).declare d := by
  simp [build]

end Program

end Monomorph
