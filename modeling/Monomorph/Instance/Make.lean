import Monomorph.Error
import Monomorph.Instance.Basic
import Monomorph.Program.Resolve
import Monomorph.Unused.Analyzer

/-!
# Making instances

An instance is made from an item and arguments for all its parameters. The arguments at unused
positions are replaced by placeholders, so calls that differ only there share one instance. Which
positions are unused is a parameter here, a function from items to sets.
-/

namespace Monomorph

/-- Answers for every item which of its parameters are unused. -/
abbrev UnusedSets := ItemId → ParamSet

namespace Program

variable (p : Program)

/-- Arguments are accepted only if there is one for each parameter. -/
def checkArity (i : ItemId) (args : Args) : Except Reason Unit :=
  let expected := (p.item i).generics.count
  if args.length = expected then .ok () else .error (.argCount expected args.length)

/-- What an item is instantiated as. -/
def instanceDef (i : ItemId) : InstanceDef :=
  if (p.item i).kind.isStatic then .static i else .item i

/-- The instance of an item for arguments of which the unused ones are known. -/
def instanceWith (unused : ParamSet) (i : ItemId) (args : Args) : Instance :=
  ⟨p.instanceDef i, (p.item i).generics.normalize unused args⟩

variable (unused : UnusedSets)

/-- The instance of an item for arguments. -/
def instantiate (i : ItemId) (args : Args) : Except Reason Instance := do
  p.checkArity i args
  return p.instanceWith (unused i) i args

/-- The entry of a vtable for a method with arguments. -/
def vtableShim (method : ItemId) (args : Args) : Except Reason Instance := do
  p.checkArity method args
  return ⟨.vtableShim method, (p.item method).generics.normalize (unused method) args⟩

/-- The reason to give when a call could not be resolved. -/
def noImpl (callee : ItemId) (args : Args) : Reason :=
  match (p.item callee).kind with
  | .traitMethod trait =>
    .noImpl (p.names.item trait)
      -- the implementing type stands in front, if any argument was given
      (match args with
        | .ty self :: _ => self.text p.names
        | _ => "?")
  | _ => .notCallable

/-- The instance that a call needs. A call through a vtable needs none. -/
def callee (i : ItemId) (args : Args) : Except Reason (Option Instance) :=
  match p.resolve i args with
  | .item target targetArgs =>
    -- what was resolved may be a type or a trait, which cannot be called
    if (p.item target).kind.isCallable then some <$> p.instantiate unused target targetArgs
    else .error .notCallable
  | .virtual => .ok none
  | .unresolved => .error (p.noImpl i args)

/-- The error for an item that cannot be instantiated for arguments. -/
def unresolved (i : ItemId) (args : Args) (span : Span) (reason : Reason) : Error :=
  .unresolved (p.applied i args) reason span

/-- The error for a conflict of the analyzer. -/
def conflictError (c : Conflict) : Error := .conflict (p.item c.item).path c.stored c.computed

/-- An item is instantiated exactly where the arguments are as many as its parameters. -/
theorem instantiate_eq_ok_iff {i : ItemId} {args : Args} {inst : Instance} :
    p.instantiate unused i args = .ok inst ↔
      args.length = (p.item i).generics.count ∧ inst = p.instanceWith (unused i) i args := by
  unfold instantiate checkArity
  by_cases h : args.length = (p.item i).generics.count
  · simp [h, bind, Except.bind, pure, Except.pure, eq_comm]
  · simp [h, bind, Except.bind]

end Program

end Monomorph
