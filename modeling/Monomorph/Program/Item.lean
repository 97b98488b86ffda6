import Monomorph.Diagnostic.Span
import Monomorph.Ty.Equality
import Monomorph.Ty.Params

/-!
# Items

An item is what a program declares: a function, a closure, a static, a type, a trait or a block
that implements one. Bodies are reduced to the operations that can require another instance to
exist; types in them may mention the item's own generic parameters by position.
-/

namespace Monomorph

/-- The position of a crate; the crate being compiled comes first. -/
abbrev CrateId := Nat

/-- The position of a module region. -/
abbrev RegionId := Nat

/-- The crate being compiled. -/
def localCrate : CrateId := 0

/-- Who may name an item. -/
inductive Visibility where
  | everyone
  | crate
  | module
  deriving DecidableEq, Repr, Inhabited

/-- Where an item comes from and how it may be linked. -/
structure Provenance where
  origin : CrateId := localCrate
  visibility : Visibility := .module
  /-- The body may be generated again in the crates that use it. -/
  inlinable : Bool := false
  /-- The symbol must stay visible from outside. -/
  forced : Bool := false
  deriving DecidableEq, Repr, Inhabited

namespace Provenance

/-- The provenance of what the compiler makes itself. -/
def synthetic : Provenance := {}

/-- Whether the item belongs to the crate being compiled. -/
def isLocal (p : Provenance) : Bool := p.origin == localCrate

end Provenance

/-- A generic parameter. -/
structure Param where
  name : String
  kind : ParamKind
  deriving DecidableEq, Repr

/-- The placeholder for the parameter of a given sort at a given position. -/
def ParamKind.placeholder : ParamKind → Nat → Arg Ty
  | .type, i => .ty (.param i)
  | .const, i => .const (.param i)

/-- The generic parameters of an item. An item inside another one has the other's parameters in
    front of its own. -/
structure Generics where
  parent : Option ItemId := none
  /-- How many parameters come from the parent. -/
  inherited : Nat := 0
  params : List Param := []
  deriving DecidableEq, Repr, Inhabited

namespace Generics

/-- The number of parameters. -/
def count (g : Generics) : Nat := g.params.length

/-- The number of parameters that do not come from the parent. -/
def ownCount (g : Generics) : Nat := g.count - g.inherited

/-- Whether there is no parameter at all. -/
def isEmpty (g : Generics) : Bool := g.params.isEmpty

/-- The argument list that puts every parameter for itself. -/
def identityArgs (g : Generics) : Args :=
  g.params.mapIdx fun i p => p.kind.placeholder i

/-- There is one identity argument for each parameter. -/
@[simp] theorem length_identityArgs (g : Generics) : g.identityArgs.length = g.count := by
  simp [identityArgs, count]

end Generics

/-- A requirement on the parameters of an item: a type implements a trait. -/
structure Predicate where
  subject : Ty
  trait : ItemId
  args : Args := []
  deriving DecidableEq

/-- A question about the layout of a type. -/
inductive LayoutQuery where
  | size
  | align
  | fieldOffset
  deriving DecidableEq, Repr

/-- How a function is named in a body. -/
inductive CallKind where
  /-- It is called. -/
  | direct
  /-- It is turned into a function pointer. -/
  | pointer
  deriving DecidableEq, Repr

/-- What one operation of a body does. -/
inductive Action where
  /-- Names a function with arguments. A method of a trait stands for the method of whichever
      block implements the trait for the first argument. -/
  | call (kind : CallKind) (callee : ItemId) (args : Args)
  | staticRef (item : ItemId)
  /-- A value goes out of scope. -/
  | drop (ty : Ty)
  /-- A pointer to a concrete type becomes a pointer to a trait object. -/
  | unsize (source target : Ty)
  | layout (query : LayoutQuery) (ty : Ty)
  /-- Any other operand. -/
  | use (ty : Ty)
  deriving DecidableEq

/-- An operation of a body and where it stands. -/
structure Operation where
  action : Action
  span : Span := .dummy
  deriving DecidableEq

/-- A call or another mention of a function in a body. -/
structure CallSite where
  kind : CallKind
  callee : ItemId
  args : Args
  span : Span
  deriving DecidableEq

/-- The body of an item, as far as other instances depend on it. -/
structure Body where
  locals : List Ty := []
  ops : List Operation := []
  deriving DecidableEq, Inhabited

namespace Body

/-- The functions named in a body, in order. -/
def calls (b : Body) : List CallSite :=
  b.ops.filterMap fun op => match op.action with
    | .call kind callee args => some ⟨kind, callee, args, op.span⟩
    | _ => none

/-- The statics named in a body, in order. -/
def statics (b : Body) : List (ItemId × Span) :=
  b.ops.filterMap fun op => match op.action with
    | .staticRef item => some (item, op.span)
    | _ => none

/-- The types of the values dropped in a body, in order. -/
def drops (b : Body) : List (Ty × Span) :=
  b.ops.filterMap fun op => match op.action with
    | .drop ty => some (ty, op.span)
    | _ => none

/-- The coercions to trait objects in a body, in order. -/
def unsizes (b : Body) : List (Ty × Ty × Span) :=
  b.ops.filterMap fun op => match op.action with
    | .unsize source target => some (source, target, op.span)
    | _ => none

/-- A rough measure of the code generated for a body. -/
def size (b : Body) : Nat := b.ops.length + 1

end Body

/-- What an item is. -/
inductive ItemKind where
  | fn
  | closure
  | static
  | adt (fields : List Ty)
  | trait
  /-- A method declared in a trait. Its first parameter is the implementing type. -/
  | traitMethod (trait : ItemId)
  /-- A block that implements a trait for all types of a pattern. -/
  | impl (trait : ItemId) (pattern : Ty)
  /-- The method that a block has for a method of the trait. -/
  | implMethod (method : ItemId)
  deriving DecidableEq

namespace ItemKind

/-- Whether instances of the item are called. -/
def isCallable : ItemKind → Bool
  | fn | closure | traitMethod _ | implMethod _ => true
  | static | adt _ | trait | impl .. => false

/-- Whether the item stands for a place in memory. -/
def isStatic : ItemKind → Bool
  | static => true
  | _ => false

end ItemKind

/-- An item of a program. -/
structure Item where
  name : String
  /-- The path inside the crate, segments separated by two colons. -/
  path : String
  kind : ItemKind
  generics : Generics := {}
  predicates : List Predicate := []
  span : Span := .dummy
  body : Option Body := none
  provenance : Provenance := {}
  region : RegionId := 0
  deriving DecidableEq

instance : Inhabited Item := ⟨{ name := "", path := "", kind := .fn }⟩

end Monomorph
