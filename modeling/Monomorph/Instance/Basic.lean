import Monomorph.Program.Basic

/-!
# Instances

An instance is a body for which code is generated: an item, or a body that the compiler makes
itself, with arguments for its parameters.
-/

namespace Monomorph

/-- What an instance is an instance of. -/
inductive InstanceDef where
  /-- The body of a function, closure or method. -/
  | item (i : ItemId)
  /-- The initial value of a static. -/
  | static (i : ItemId)
  /-- Code made by the compiler that drops a value of the type in the first slot. -/
  | dropGlue
  /-- The entry of a vtable that passes a call on to a method. -/
  | vtableShim (i : ItemId)
  deriving DecidableEq, Repr, Inhabited

namespace InstanceDef

/-- The item behind an instance, if there is one. -/
def item? : InstanceDef → Option ItemId
  | item i | static i | vtableShim i => some i
  | dropGlue => none

/-- A number that tells what an instance is an instance of. -/
def fingerprint : InstanceDef → Fingerprint
  | item i => .mix 0 i.toUInt64
  | static i => .mix 1 i.toUInt64
  | dropGlue => 0
  | vtableShim i => .mix 2 i.toUInt64

/-- The word for the kind of instance. -/
def kindText : InstanceDef → String
  | item _ => "fn"
  | static _ => "static"
  | dropGlue => "drop"
  | vtableShim _ => "vtable-shim"

/-- Whether the compiler makes the body itself. -/
def isSynthetic : InstanceDef → Bool
  | dropGlue | vtableShim _ => true
  | item _ | static _ => false

end InstanceDef

/-- A body with arguments. -/
structure Instance where
  what : InstanceDef
  args : Args
  deriving DecidableEq

instance : Inhabited Instance := ⟨.dropGlue, []⟩

namespace Instance

/-- The code that drops a value of a type. -/
def glue (t : Ty) : Instance := ⟨.dropGlue, [.ty t]⟩

/-- A number made from an instance, by which it is looked for. -/
def fingerprint (inst : Instance) : Fingerprint :=
  .mix inst.what.fingerprint inst.args.fingerprint

instance : Hashable Instance := ⟨fingerprint⟩

/-- The item behind an instance, if there is one. -/
def item? (inst : Instance) : Option ItemId := inst.what.item?

/-- The type whose values an instance drops, if it is drop glue. -/
def glueTy? (inst : Instance) : Option Ty :=
  match inst.what with
  | .dropGlue => inst.args.head?.bind Arg.ty?
  | _ => none

/-- The written form for users. -/
def text (p : Program) (inst : Instance) : String :=
  match inst.what with
  | .item i | .static i => p.applied i inst.args
  -- a type on its own has no item whose names its parameters could have
  | .dropGlue => "drop-glue" ++ inst.args.text p.names
  | .vtableShim i => "vtable-shim(" ++ p.applied i inst.args ++ ")"

/-- The type a drop glue is for is read back from the instance. -/
@[simp] theorem glueTy?_glue (t : Ty) : (glue t).glueTy? = some t := rfl

end Instance

end Monomorph
