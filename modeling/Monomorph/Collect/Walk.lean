import Monomorph.Collect.Needs
import Monomorph.Config

/-!
# The walk

The walk starts from the root instances and enters every instance that is needed, depth first and
each one once. The stack holds the chain from the root to the instance at hand, with what is left
to enter at each link; when the arguments of an instance are too long or nested too deeply the walk
ends, and the chain is the explanation. Both limits look at the instance alone and never at the way
it was reached. An instance some use of which cannot be resolved is kept without uses and the walk
goes on, so that all such errors are found together.

An instance is entered at most once and one beyond the limits ends the walk, so every walk ends.
The bound is too large to compute; `Walk.run` takes fuel and gives `none` when it runs out.
-/

namespace Monomorph

/-- What placement has to know of an instance. -/
structure Info where
  provenance : Provenance
  /-- The region of the item that the instance is about, if it is about one. -/
  region : Option RegionId
  /-- Whether the item is generic or the compiler made the body. -/
  isGeneric : Bool
  /-- A rough measure of the code generated. -/
  size : Nat
  /-- Whether code is generated here; otherwise another crate has it. -/
  isGenerated : Bool
  deriving DecidableEq, Repr

namespace Info

/-- Whether the instance belongs to the crate being compiled. -/
def isLocal (i : Info) : Bool := i.provenance.isLocal

end Info

mutual

/-- The region of the first item that a type is about, found below pointers, arrays and tuples. -/
def Ty.region (regionOf : ItemId → RegionId) (t : Ty) : Option RegionId :=
  match t with
  -- the item decides, whatever its arguments are about
  | .nominal _ i _ | .dyn i => some (regionOf i)
  | .wrap _ t | .array t _ => t.region regionOf
  | .tuple ts => ts.region regionOf
  | .prim _ | .fnPtr .. | .param _ => none
termination_by structural t

/-- The region of the first item that one of the types of a list is about. -/
def Tys.region (regionOf : ItemId → RegionId) (ts : Tys) : Option RegionId :=
  match ts with
  | .nil => none
  | .cons t ts =>
    match t.region regionOf with
    | some r => some r
    | none => ts.region regionOf
termination_by structural ts

end

namespace Program

variable (p : Program)

/-- The region that a type belongs to. -/
def regionOfTy (t : Ty) : Option RegionId := t.region fun i => (p.item i).region

/-- What is known of an instance before its body is looked at. -/
def info (inst : Instance) : Info :=
  match inst.what with
  | .item i | .static i =>
    let it := p.item i
    let isGeneric := !it.generics.isEmpty
    -- what another crate has need not be made here, unless it is generic or may be inlined
    let isGenerated := it.provenance.isLocal || isGeneric || it.provenance.inlinable
    { provenance := it.provenance
      region := some it.region
      isGeneric
      size := if isGenerated then (it.body.map Body.size).getD 1 else 0
      isGenerated }
  | .vtableShim i =>
    { provenance := .synthetic
      region := some (p.item i).region
      isGeneric := true
      size := 1
      isGenerated := true }
  | .dropGlue =>
    { provenance := .synthetic
      region := inst.glueTy?.bind p.regionOfTy
      isGeneric := true
      size := 1
      isGenerated := true }

/-- Looks up which glue is needed, and gives the instances that are. -/
def settle (fuel : Nat) : List Need → DropMemo → Option (List Neighbor × DropMemo)
  | [], m => some ([], m)
  | .use n :: rest, m => do
    let (ns, m) ← settle fuel rest m
    return (n :: ns, m)
  | .glue t kind span :: rest, m => do
    -- the rest is settled with what this answer has left in the memory
    let (inst?, m) ← p.glue? fuel t m
    let (ns, m) ← settle fuel rest m
    return (inst?.toList.map (⟨·, kind, span⟩) ++ ns, m)

end Program

/-- What is kept of an instance that has been entered. -/
structure Record where
  inst : Instance
  info : Info
  uses : List (Instance × UseKind)
  deriving DecidableEq

/-- A link of the chain: an instance and what is left to enter for it. -/
structure Frame where
  inst : Instance
  pending : List Neighbor
  deriving DecidableEq

/-- A walk under way. -/
structure Walk where
  /-- The roots that have not been entered. -/
  waiting : List Instance
  /-- The chain, its end first. -/
  stack : List Frame := []
  /-- The instances that have been entered. -/
  claimed : Index Instance Unit := {}
  /-- What is kept of them, the newest first. -/
  records : List Record := []
  drops : DropMemo := {}
  /-- The items whose unused parameters were asked for. -/
  asked : List ItemId := []
  /-- The types made on the way, those made when types were classified apart. -/
  formed : List Ty := []
  /-- The instances that could not be resolved, the newest first. -/
  errors : List Error := []
  /-- The error that ended the walk. -/
  fatal : Option Error := none

namespace Walk

variable (p : Program) (config : Config) (unused : UnusedSets)

/-- Ends the walk. -/
def fail (w : Walk) (e : Error) : Walk := { w with fatal := some e }

/-- Keeps an instance without entering anything for it. -/
def keep (w : Walk) (inst : Instance) (info : Info) : Walk :=
  { w with records := ⟨inst, info, []⟩ :: w.records }

/-- The instances from the root to the end of the chain. -/
def chain (w : Walk) : List Instance := (w.stack.map Frame.inst).reverse

/-- Looks at an instance that is generated here and within the limits, given what it needs. -/
def scanned (fuel : Nat) (w : Walk) (inst : Instance) (needs : Needs) : Option Walk := do
  let info := p.info inst
  -- what stands in front of a failure has been looked up by then
  let (neighbors, drops) ← p.settle fuel needs.found w.drops
  let w := { w with drops, asked := needs.items ++ w.asked, formed := needs.types ++ w.formed }
  match needs.failure with
  | some e => return { w.keep inst info with errors := e :: w.errors }
  | none =>
    -- glue is measured by the calls in it
    let info := if inst.what = .dropGlue then { info with size := neighbors.length + 1 } else info
    return { w with
      records := ⟨inst, info, neighbors.map fun n => (n.inst, n.kind)⟩ :: w.records
      stack := ⟨inst, neighbors⟩ :: w.stack }

/-- All types made on the way. -/
def types (w : Walk) : List Ty := w.formed ++ w.drops.formed

/-- Whether there is nothing left to do. -/
def isDone (w : Walk) : Bool := w.fatal.isSome || (w.stack.isEmpty && w.waiting.isEmpty)

/-! ### The walk for a way to scan

How an instance is scanned is an input here, an action of any sort. -/

section By

variable {m : Type → Type} [Monad m]

/-- Enters an instance that has not been entered before. -/
def claimBy (scan : Walk → Instance → m Walk) (w : Walk) (inst : Instance) (span : Span) :
    m Walk :=
  -- claimed before it is checked, so it is not checked again
  let w := { w with claimed := w.claimed.insert inst () }
  if inst.args.nodeCount > config.lengthLimit then
    pure (w.fail (.typeLength (inst.text p) inst.args.nodeCount config.lengthLimit span))
  else if inst.args.nesting > config.depthLimit then
    -- the report shows the chain down to the instance at fault
    pure (w.fail (.overflow (inst.text p) config.depthLimit
      ((w.chain ++ [inst]).map (Instance.text p)) span))
  else if (p.info inst).isGenerated then scan w inst
  else pure (w.keep inst (p.info inst))

/-- Enters an instance unless it has been entered before. -/
def enterBy (scan : Walk → Instance → m Walk) (w : Walk) (inst : Instance) (span : Span) :
    m Walk :=
  if w.claimed.contains inst then pure w else w.claimBy p config scan inst span

/-- Enters what is next at the end of the chain, takes the end away when nothing is left there, or
    starts a new chain from the next root. -/
def stepBy (scan : Walk → Instance → m Walk) (w : Walk) : m Walk :=
  match w.stack with
  | ⟨inst, n :: pending⟩ :: stack =>
    -- taken off before it is entered, since entering it may lengthen the chain
    { w with stack := ⟨inst, pending⟩ :: stack }.enterBy p config scan n.inst n.span
  | ⟨_, []⟩ :: stack => pure { w with stack }
  | [] =>
    match w.waiting with
    | root :: waiting => { w with waiting }.enterBy p config scan root .dummy
    | [] => pure w

/-- Goes on until there is nothing left to do, or stops where fuel runs out. -/
def runBy (stop : m Walk) (scan : Nat → Walk → Instance → m Walk) : (fuel : Nat) → Walk → m Walk
  | 0, _ => stop
  | fuel + 1, w =>
    if w.isDone then pure w
    else do
      let w ← w.stepBy p config (scan fuel)
      runBy stop scan fuel w

end By

/-! ### The walk for given sets -/

/-- Looks at an instance that is generated here and within the limits. -/
def scan (fuel : Nat) (w : Walk) (inst : Instance) : Option Walk :=
  w.scanned p fuel inst (p.needs unused inst)

/-- Enters an instance unless it has been entered before. -/
def enter (fuel : Nat) (w : Walk) (inst : Instance) (span : Span) : Option Walk :=
  w.enterBy p config (scan p unused fuel) inst span

/-- Does what is next. -/
def step (fuel : Nat) (w : Walk) : Option Walk := w.stepBy p config (scan p unused fuel)

/-- Goes on until there is nothing left to do. -/
def run (fuel : Nat) (w : Walk) : Option Walk := w.runBy p config none (scan p unused) fuel

/-- The walk before its first step. -/
def start (roots : List ItemId) : Walk where
  waiting := roots.map fun i => p.instanceWith (unused i) i []
  asked := roots

end Walk

end Monomorph
