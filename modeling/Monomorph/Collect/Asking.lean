import Monomorph.Collect.Items
import Monomorph.Unused.Query

/-!
# Collecting with questions

`Program.collect` takes the sets of unused parameters from the analyzer as it is before the walk.
Here the walk asks for a set when it is about to make an instance, one question at a time, and each
question is put to the analyzer as the questions before it have left it. No question is asked about
an item whose number of arguments is wrong, or about anything behind a use that could not be
resolved.

Both ways come to one collection and leave one analyzer behind (`Program.collecting_eq`).
-/

namespace Monomorph

open Analyzer (Asking)

namespace Needs

/-- Goes on to what comes next, unless there has been a failure. -/
def andThenM (x next : Asking Needs) : Asking Needs := do
  let n ← x
  match n.failure with
  | some _ => return n
  | none =>
    let m ← next
    return n.andThen fun _ => m

/-- What the members of a list need, one after the other up to the first failure. -/
def gatherM {α : Type} (f : α → Asking Needs) : List α → Asking Needs
  | [] => return {}
  | a :: as => andThenM (f a) (gatherM f as)

end Needs

namespace Program

variable (p : Program) (ask : ItemId → Asking ParamSet)

/-- What is made of an item for arguments. The set of the item is asked for once the arguments have
    been accepted. -/
def makeM (make : ParamSet → Instance) (i : ItemId) (args : Args) :
    Asking (Except Reason Instance) :=
  -- a call with too few or too many arguments asks nothing
  match p.checkArity i args with
  | .ok () => do
    let unused ← ask i
    return .ok (make unused)
  | .error e => return .error e

/-- The instance of an item for arguments. -/
def instantiateM (i : ItemId) (args : Args) : Asking (Except Reason Instance) :=
  p.makeM ask (p.instanceWith · i args) i args

/-- The entry of a vtable for a method with arguments. -/
def vtableShimM (method : ItemId) (args : Args) : Asking (Except Reason Instance) :=
  p.makeM ask (fun unused => ⟨.vtableShim method, (p.item method).generics.normalize unused args⟩)
    method args

/-- The instance that a call needs. A call through a vtable needs none. -/
def calleeM (i : ItemId) (args : Args) : Asking (Except Reason (Option Instance)) :=
  match p.resolve i args with
  | .item target targetArgs =>
    if (p.item target).kind.isCallable then do
      let made ← p.instantiateM ask target targetArgs
      return some <$> made
    else return .error .notCallable
  | .virtual => return .ok none
  | .unresolved => return .error (p.noImpl i args)

/-- What follows once the parameters of a type in the body of item `i` are replaced. -/
def needsOfSubstM (i : ItemId) (args : Args) (span : Span) (t : Ty) (next : Ty → Asking Needs) :
    Asking Needs :=
  match t.subst args with
  | .error e =>
    return { failure := some (p.unresolved i args span (.subst e)), formed := t.formed args }
  | .ok u => Needs.andThenM (return { formed := [u] }) (next u)

/-- The need for an instance that was to be made, or for none if a call needs none. -/
def needFor (i : ItemId) (args : Args) (kind : UseKind) (span : Span)
    (made : Except Reason (Option Instance)) : Except Error (Option Need) := do
  let inst? ← p.orUnresolved i args span id made
  return inst?.map fun inst => .use ⟨inst, kind, span⟩

/-- What a call in a body needs, for the arguments of the instance. -/
def callNeedsM (args : Args) (site : CallSite) : Asking Needs :=
  match p.orUnresolved site.callee site.args site.span .subst (args.subst site.args) with
  | .error e => return .ofResult (args.formed site.args) (.error e)
  | .ok callArgs => do
    let made ← p.calleeM ask site.callee callArgs
    return .ofResult (args.formed site.args) <|
      p.needFor site.callee callArgs site.kind.useKind site.span made

/-- What a mention of a static needs. -/
def staticNeedsM (site : ItemId × Span) : Asking Needs := do
  let made ← p.instantiateM ask site.1 []
  return .ofResult [] (p.needFor site.1 [] .static site.2 (some <$> made))

/-- What one method of a trait adds to the vtable of a type. -/
def methodNeedsM (concrete : Ty) (span : Span) (method : ItemId) : Asking Needs :=
  match p.resolve method [.ty concrete] with
  | .item target targetArgs => do
    let made ← p.vtableShimM ask target targetArgs
    return .ofResult [] (p.needFor target targetArgs .vtable span (some <$> made))
  | .virtual => return .ofResult [] (.ok none)
  | .unresolved =>
    let reason := p.noImpl method [.ty concrete]
    return .ofResult [] (.error (p.unresolved method [.ty concrete] span reason))

/-- What the vtable of a type for a trait needs: the glue for the type and an entry for each
    method. -/
def vtableNeedsM (concrete : Ty) (trait : ItemId) (span : Span) : Asking Needs :=
  Needs.andThenM (return { found := [.glue concrete .vtable span] })
    (Needs.gatherM (p.methodNeedsM ask concrete span) (p.vtableMethods trait))

/-- What a coercion needs. -/
def unsizeNeedsM (i : ItemId) (args : Args) (site : Ty × Ty × Span) : Asking Needs :=
  p.needsOfSubstM i args site.2.2 site.1 fun source =>
    p.needsOfSubstM i args site.2.2 site.2.1 fun target =>
      match unsizeParts source target with
      | some (concrete, trait) => p.vtableNeedsM ask concrete trait site.2.2
      | none => return {}

/-- What a body needs: calls first, then statics, dropped values and coercions. -/
def bodyNeedsM (i : ItemId) (args : Args) (b : Body) : Asking Needs :=
  Needs.andThenM (Needs.gatherM (p.callNeedsM ask args) b.calls) <|
    Needs.andThenM (Needs.gatherM (p.staticNeedsM ask) b.statics) <|
      -- which values need glue depends on no set
      Needs.andThenM (return .gather (p.dropNeeds i args) b.drops) <|
        Needs.gatherM (p.unsizeNeedsM ask i args) b.unsizes

/-- What drop glue needs: the declared method, and glue for what lies inside. -/
def glueNeedsM (inst : Instance) (t : Ty) : Asking Needs :=
  let formed := p.glueFormed t
  match p.glueCandidates t with
  | .error e => return { failure := some (.unresolved (inst.text p) (.subst e) .dummy), formed }
  | .ok parts =>
    let children := parts.children.map fun c => .glue c .drop .dummy
    match parts.method with
    | none => return { found := children, formed }
    | some (method, args) => do
      let made ← p.instantiateM ask method args
      return match p.orUnresolved method args .dummy id made with
        | .ok inst => { found := .use ⟨inst, .call, .dummy⟩ :: children, formed }
        | .error e => { found := children, failure := some e, formed }

/-- What an instance needs. -/
def needsM (inst : Instance) : Asking Needs :=
  match inst.what with
  | .item i | .static i =>
    match (p.item i).body with
    | some b => p.bodyNeedsM ask i inst.args b
    | none => return { failure := some (p.unresolved i inst.args (p.item i).span .missingBody) }
  | .dropGlue =>
    match inst.glueTy? with
    | some t => p.glueNeedsM ask inst t
    | none => return {}
  | .vtableShim i => do
    let made ← p.instantiateM ask i inst.args
    return .ofResult [] (p.needFor i inst.args .call .dummy (some <$> made))

end Program

namespace Walk

variable (p : Program) (config : Config) (ask : ItemId → Asking ParamSet)

/-- Looks at an instance that is generated here and within the limits. -/
def scanM (fuel : Nat) (w : Walk) (inst : Instance) : Asking Walk := do
  let needs ← p.needsM ask inst
  -- what the needs come to is known, and the rest of the scan asks nothing
  StateT.lift (w.scanned p fuel inst needs)

/-- The walk before its first step. -/
def startM (roots : List ItemId) : Asking Walk := do
  let waiting ← roots.mapM fun i => (p.instanceWith · i []) <$> ask i
  return { waiting, asked := roots }

end Walk

/-- Collects every instance that a program needs, and asks for sets of unused parameters on the
    way. -/
def Program.collecting (p : Program) (config : Config) (fuel : Nat) :
    Asking (Walk × Except (List Error) Collection) := do
  let ask := Analyzer.query p (p.items.size + 1)
  let start ← Walk.startM p ask (p.rootItems config.mode)
  -- a question may lead through all items, each inside the one before it
  let walk ← start.runBy p config (fun _ => none) (Walk.scanM p ask) fuel
  return (walk, walk.finish p start.waiting (p.rootWarnings config.mode))

end Monomorph
