/-!
# One layer of a type

`TyNode α` is one layer of a type with children of any kind `α`. Functions on types are written
for one layer and carried through a whole type (`Monomorph.Ty.Basic`); a table of types keeps
layers whose children are handles. The view `TyNode.slots` lists what stands below a layer in
reading order, so that most functions need not tell the kinds of layers apart.
-/

namespace Monomorph

/-- The position of an item in the order of declaration. -/
abbrev ItemId := Nat

/-- The built-in types without children. The empty tuple is a built-in type too but is written as
    a tuple. -/
inductive Prim where
  | bool | char
  | i8 | i16 | i32 | i64 | i128 | isize
  | u8 | u16 | u32 | u64 | u128 | usize
  | f32 | f64
  | str
  | never
  deriving DecidableEq, Repr, Inhabited

namespace Prim

/-- The built-in types, in their order. -/
def all : List Prim :=
  [bool, char, i8, i16, i32, i64, i128, isize, u8, u16, u32, u64, u128, usize, f32, f64, str,
    never]

/-- The written form. -/
def text : Prim → String
  | bool => "bool"
  | char => "char"
  | i8 => "i8"
  | i16 => "i16"
  | i32 => "i32"
  | i64 => "i64"
  | i128 => "i128"
  | isize => "isize"
  | u8 => "u8"
  | u16 => "u16"
  | u32 => "u32"
  | u64 => "u64"
  | u128 => "u128"
  | usize => "usize"
  | f32 => "f32"
  | f64 => "f64"
  | str => "str"
  | never => "!"

/-- No primitive is missing from the list of all primitives. -/
theorem mem_all (p : Prim) : p ∈ all := by cases p <;> decide

end Prim

/-- Whether a pointer gives the right to write. -/
inductive Mutability where
  | shared
  | exclusive
  deriving DecidableEq, Repr, Inhabited

/-- A type former that wraps a single type. -/
inductive Wrapper where
  /-- A run of elements of unknown number. -/
  | slice
  /-- A borrowed pointer. -/
  | ref (m : Mutability)
  /-- A raw pointer. -/
  | raw (m : Mutability)
  /-- An owning pointer: dropping it drops what it points to. -/
  | box
  deriving DecidableEq, Repr, Inhabited

/-- The kinds of types that name an item and give it arguments. -/
inductive Nominal where
  /-- A structure or enumeration. -/
  | adt
  /-- The type of one particular function. -/
  | fnDef
  /-- The type of one particular closure. -/
  | closure
  deriving DecidableEq, Repr, Inhabited

/-- A constant in a type: a value or a parameter of the enclosing generics. -/
inductive Const where
  | value (n : Nat)
  | param (index : Nat)
  deriving DecidableEq, Repr, Inhabited

/-- One slot of an argument list: a type or a constant. -/
inductive Arg (α : Type) where
  | ty (t : α)
  | const (c : Const)
  deriving DecidableEq, Repr

/-- One layer of a type, with children in `α`. -/
inductive TyNode (α : Type) where
  | prim (p : Prim)
  | tuple (elems : List α)
  | array (elem : α) (len : Const)
  | wrap (w : Wrapper) (inner : α)
  | nominal (k : Nominal) (item : ItemId) (args : List (Arg α))
  /-- A trait object. -/
  | dyn (trait : ItemId)
  | fnPtr (inputs : List α) (output : α)
  /-- The type parameter at a position of the enclosing generics. -/
  | param (index : Nat)
  deriving DecidableEq, Repr

namespace Arg

variable {α β : Type}

/-- The type in a slot, if it holds one. -/
def ty? : Arg α → Option α
  | ty t => some t
  | const _ => none

/-- Changes the type in a slot. -/
def map (f : α → β) : Arg α → Arg β
  | ty t => ty (f t)
  | const c => const c

/-- Runs an action on what a slot holds. -/
def mapM {m : Type → Type} [Monad m] (f : α → m β) (g : Const → m Const) : Arg α → m (Arg β)
  | ty t => ty <$> f t
  | const c => const <$> g c

/-- A type slot is mapped by the function. -/
@[simp] theorem map_ty (f : α → β) (t : α) : (ty t).map f = ty (f t) := rfl

/-- A constant slot is left as it is. -/
@[simp] theorem map_const (f : α → β) (c : Const) : (const c : Arg α).map f = const c := rfl

end Arg

namespace TyNode

variable {α β : Type}

/-- Changes the children. -/
def map (f : α → β) : TyNode α → TyNode β
  | prim p => prim p
  | tuple ts => tuple (ts.map f)
  | array t n => array (f t) n
  | wrap w t => wrap w (f t)
  | nominal k i as => nominal k i (as.map (Arg.map f))
  | dyn i => dyn i
  | fnPtr ins out => fnPtr (ins.map f) (f out)
  | param i => param i

/-- Runs an action on every child and constant, in reading order. -/
def mapM {m : Type → Type} [Monad m] (f : α → m β) (g : Const → m Const) :
    TyNode α → m (TyNode β)
  | prim p => pure (prim p)
  | tuple ts => tuple <$> ts.mapM f
  | array t n => do
    let t ← f t
    let n ← g n
    return array t n
  | wrap w t => wrap w <$> f t
  | nominal k i as => nominal k i <$> as.mapM (Arg.mapM f g)
  | dyn i => pure (dyn i)
  | fnPtr ins out => do
    let ins ← ins.mapM f
    let out ← f out
    return fnPtr ins out
  | param i => pure (param i)

/-- What stands below a node, in reading order. -/
def slots : TyNode α → List (Arg α)
  | prim _ | dyn _ | param _ => []
  | tuple ts => ts.map .ty
  | array t n => [.ty t, .const n]
  | wrap _ t => [.ty t]
  | nominal _ _ as => as
  | fnPtr ins out => ins.map .ty ++ [.ty out]

/-- The children, in reading order. -/
def children (n : TyNode α) : List α := n.slots.filterMap Arg.ty?

/-- The slots of a mapped layer are the mapped slots. -/
theorem slots_map (f : α → β) (n : TyNode α) : (n.map f).slots = n.slots.map (Arg.map f) := by
  cases n <;> simp [map, slots, Function.comp_def]

/-- Mapping a layer twice maps it by the composition. -/
theorem map_map {γ : Type} (f : α → β) (g : β → γ) (n : TyNode α) :
    (n.map f).map g = n.map (g ∘ f) := by
  have h : Arg.map g ∘ Arg.map f = Arg.map (g ∘ f) := by
    funext a; cases a <;> rfl
  cases n <;> simp [map, h]

/-- Mapping a layer by the identity leaves it as it is. -/
theorem map_id (n : TyNode α) : n.map id = n := by
  have h : (Arg.map id : Arg α → Arg α) = id := by
    funext a; cases a <;> rfl
  cases n <;> simp [map, h]

end TyNode

end Monomorph
