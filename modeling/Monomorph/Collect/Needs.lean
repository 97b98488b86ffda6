import Monomorph.Drop.Basic
import Monomorph.Graph.Usage
import Monomorph.Instance.Make

/-!
# What an instance needs

The body of an instance, with the instance's arguments put for its parameters, says which other
instances must exist: those that it calls or points to, the statics it names, the glue for values
it drops, and whatever the vtables it creates point to. Drop glue and vtable entries have no body
in the program; what they need follows from the type or method they stand for.

`Program.needs` finds this out as far as it does not depend on which types need drop: glue that is
needed only if its type needs drop is noted as such. It stops at the first use that cannot be
resolved and keeps what it has found in front of it.
-/

namespace Monomorph

/-- An instance that is needed, how, and where this is written. -/
structure Neighbor where
  inst : Instance
  kind : UseKind
  span : Span
  deriving DecidableEq

/-- Something that an instance needs. -/
inductive Need where
  | use (n : Neighbor)
  /-- The glue for a type, if the type needs drop. -/
  | glue (t : Ty) (kind : UseKind) (span : Span)
  deriving DecidableEq

namespace Need

/-- The instance that is needed in any case. -/
def inst? : Need → Option Instance
  | use n => some n.inst
  | glue .. => none

end Need

/-- What an instance needs, up to the first failure if there is one. -/
structure Needs where
  found : List Need := []
  failure : Option Error := none
  /-- The types made on the way. -/
  formed : List Ty := []
  deriving DecidableEq

namespace Needs

/-- A need, or none, or a failure, with the types made on the way to it. -/
def ofResult (formed : List Ty) : Except Error (Option Need) → Needs
  | .ok need => { found := need.toList, formed }
  | .error e => { failure := some e, formed }

/-- Goes on to what comes next, unless there has been a failure. -/
def andThen (n : Needs) (next : Unit → Needs) : Needs :=
  match n.failure with
  | some _ => n
  | none =>
    let m := next ()
    { m with found := n.found ++ m.found, formed := n.formed ++ m.formed }

/-- What the members of a list need, one after the other up to the first failure. -/
def gather {α : Type} (f : α → Needs) : List α → Needs
  | [] => {}
  | a :: as => (f a).andThen fun _ => gather f as

/-- The instances that are needed in any case. -/
def insts (n : Needs) : List Instance := n.found.filterMap Need.inst?

/-- The items whose unused parameters were asked for: those of the instances that were made. -/
def items (n : Needs) : List ItemId := n.insts.filterMap Instance.item?

/-- The types made on the way, those in the arguments of the instances that were made included. -/
def types (n : Needs) : List Ty := n.formed ++ n.insts.flatMap fun inst => inst.args.types

/-- Two steps in a row succeed when both do. -/
theorem failure_andThen_eq_none {n : Needs} {next : Unit → Needs} :
    (n.andThen next).failure = none ↔ n.failure = none ∧ (next ()).failure = none := by
  unfold andThen
  split
  · next h => simp [h]
  · next h => simp [h]

/-- After a step that succeeds, the next one adds what it finds behind what was found. -/
theorem found_andThen {n : Needs} {next : Unit → Needs} (h : n.failure = none) :
    (n.andThen next).found = n.found ++ (next ()).found := by
  simp [andThen, h]

/-- Nothing fails exactly if no member of the list does. -/
theorem failure_gather_eq_none {α : Type} {f : α → Needs} {as : List α} :
    (gather f as).failure = none ↔ ∀ a ∈ as, (f a).failure = none := by
  induction as with
  | nil => simp [gather]
  | cons a as ih => simp [gather, failure_andThen_eq_none, ih]

/-- Where nothing fails, all that the members need is found. -/
theorem found_gather {α : Type} {f : α → Needs} {as : List α}
    (h : (gather f as).failure = none) : (gather f as).found = as.flatMap fun a => (f a).found := by
  induction as with
  | nil => rfl
  | cons a as ih =>
    rw [gather, failure_andThen_eq_none] at h
    rw [gather, found_andThen h.1, ih h.2, List.flatMap_cons]

end Needs

/-- How a use of a function at a call counts. -/
def CallKind.useKind : CallKind → UseKind
  | .direct => .call
  | .pointer => .fnPtr

/-- Whether a pointer of one sort may become one of another when it is coerced. -/
def Wrapper.coercesTo : Wrapper → Wrapper → Bool
  -- a reference may become a raw pointer, but not the other way round
  | .ref _, .ref _ | .raw _, .raw _ | .ref _, .raw _ | .box, .box => true
  | _, _ => false

/-- The concrete type and the trait of a coercion to a trait object, below as many pointers as
    the two sides share. There are none if no object is created. -/
def unsizeParts : Ty → Ty → Option (Ty × ItemId)
  -- what is an object already is not made one
  | .dyn _, _ => none
  | s, .dyn trait => some (s, trait)
  -- both sides lose their pointers together, as long as one may become the other
  | .wrap v s, .wrap w t => if v.coercesTo w then unsizeParts s t else none
  | _, _ => none
termination_by structural s => s

namespace Program

variable (p : Program) (unused : UnusedSets)

/-- Reports a failure as an unresolved instance. -/
def orUnresolved {ε α : Type} (i : ItemId) (args : Args) (span : Span) (reason : ε → Reason)
    (r : Except ε α) : Except Error α :=
  r.mapError fun e => p.unresolved i args span (reason e)

/-- What follows once the parameters of a type in the body of item `i` are replaced. -/
def needsOfSubst (i : ItemId) (args : Args) (span : Span) (t : Ty) (next : Ty → Needs) : Needs :=
  match t.subst args with
  | .error e => { failure := some (p.unresolved i args span (.subst e)), formed := t.formed args }
  -- the type counts as made even if what follows fails
  | .ok u => Needs.andThen { formed := [u] } fun _ => next u

/-- What a call in a body needs, for the arguments of the instance. -/
def callNeeds (args : Args) (site : CallSite) : Needs :=
  .ofResult (args.formed site.args) do
    -- a failure to substitute names the arguments as written, a later one those that were made
    let callArgs ← p.orUnresolved site.callee site.args site.span .subst (args.subst site.args)
    let inst? ← p.orUnresolved site.callee callArgs site.span id <|
      p.callee unused site.callee callArgs
    return inst?.map fun inst => .use ⟨inst, site.kind.useKind, site.span⟩

/-- What a mention of a static needs. -/
def staticNeeds (site : ItemId × Span) : Needs :=
  .ofResult [] do
    let inst ← p.orUnresolved site.1 [] site.2 id (p.instantiate unused site.1 [])
    return some (.use ⟨inst, .static, site.2⟩)

/-- What dropping a value needs. -/
def dropNeeds (i : ItemId) (args : Args) (site : Ty × Span) : Needs :=
  p.needsOfSubst i args site.2 site.1 fun t => { found := [.glue t .drop site.2] }

/-- What one method of a trait adds to the vtable of a type. -/
def methodNeeds (concrete : Ty) (span : Span) (method : ItemId) : Needs :=
  .ofResult [] <|
    match p.resolve method [.ty concrete] with
    | .item target targetArgs => do
      let inst ← p.orUnresolved target targetArgs span id (p.vtableShim unused target targetArgs)
      return some (.use ⟨inst, .vtable, span⟩)
    -- a method of the object itself is found in the object's own vtable
    | .virtual => .ok none
    | .unresolved =>
      .error (p.unresolved method [.ty concrete] span (p.noImpl method [.ty concrete]))

/-- The methods of a trait that a vtable has entries for: those without parameters of their own. -/
def vtableMethods (trait : ItemId) : List ItemId :=
  (p.traitMethods trait).filter fun m => (p.item m).generics.ownCount == 0

/-- What the vtable of a type for a trait needs: the glue for the type and an entry for each
    method. -/
def vtableNeeds (concrete : Ty) (trait : ItemId) (span : Span) : Needs :=
  Needs.andThen { found := [.glue concrete .vtable span] } fun _ =>
    .gather (p.methodNeeds unused concrete span) (p.vtableMethods trait)

/-- What a coercion needs. -/
def unsizeNeeds (i : ItemId) (args : Args) (site : Ty × Ty × Span) : Needs :=
  p.needsOfSubst i args site.2.2 site.1 fun source =>
    p.needsOfSubst i args site.2.2 site.2.1 fun target =>
      match unsizeParts source target with
      | some (concrete, trait) => p.vtableNeeds unused concrete trait site.2.2
      | none => {}

/-- What a body needs: calls first, then statics, dropped values and coercions. -/
def bodyNeeds (i : ItemId) (args : Args) (b : Body) : Needs :=
  (Needs.gather (p.callNeeds unused args) b.calls).andThen fun _ =>
    (Needs.gather (p.staticNeeds unused) b.statics).andThen fun _ =>
      (Needs.gather (p.dropNeeds i args) b.drops).andThen fun _ =>
        .gather (p.unsizeNeeds unused i args) b.unsizes

/-- What drop glue needs: the declared method, and glue for what lies inside. -/
def glueNeeds (inst : Instance) (t : Ty) : Needs :=
  let formed := p.glueFormed t
  match p.glueCandidates t with
  | .error e => { failure := some (.unresolved (inst.text p) (.subst e) .dummy), formed }
  | .ok parts =>
    let children := parts.children.map fun c => .glue c .drop .dummy
    match parts.method with
    | none => { found := children, formed }
    | some (method, args) =>
      match p.orUnresolved method args .dummy id (p.instantiate unused method args) with
      | .ok inst => { found := .use ⟨inst, .call, .dummy⟩ :: children, formed }
      -- the types inside are known by then, and are kept if the method cannot be made
      | .error e => { found := children, failure := some e, formed }

/-- What an instance needs. -/
def needs (inst : Instance) : Needs :=
  match inst.what with
  | .item i | .static i =>
    match (p.item i).body with
    | some b => p.bodyNeeds unused i inst.args b
    -- a static or function without a body is reported where it is declared
    | none => { failure := some (p.unresolved i inst.args (p.item i).span .missingBody) }
  | .dropGlue =>
    match inst.glueTy? with
    | some t => p.glueNeeds unused inst t
    | none => {}
  | .vtableShim i =>
    .ofResult [] do
      let target ← p.orUnresolved i inst.args .dummy id (p.instantiate unused i inst.args)
      return some (.use ⟨target, .call, .dummy⟩)

end Program

end Monomorph
