import Monomorph.Partition.Check

/-!
# Codegen units

The collected instances are cut into codegen units: placed by their buckets, joined down to the
number of units wanted, checked, and given their linkage. An instance stays internal to its unit
when nothing outside can refer to it; copies of another crate's items are never visible from
outside, since the other crate has their symbols.
-/

namespace Monomorph

/-- How the symbol of an instance is seen by the linker. -/
inductive Linkage where
  | external
  | internal
  /-- A copy that yields to the symbol of the crate it was copied from. -/
  | linkOnce
  deriving DecidableEq, Repr, Inhabited

/-- The written form of a linkage. -/
def Linkage.text : Linkage → String
  | external => "External"
  | internal => "Internal"
  | linkOnce => "LinkOnceOdr"

/-- An instance in its unit. -/
structure UnitItem where
  inst : Instance
  symbol : String
  linkage : Linkage
  visibility : Visibility
  size : Nat
  deriving DecidableEq

/-- A codegen unit. -/
structure CodegenUnit where
  name : String
  /-- The instances in the order of their symbols. -/
  items : List UnitItem
  cost : Nat
  deriving DecidableEq

namespace CodegenUnit

/-- What a unit holds for an instance. -/
def find? (u : CodegenUnit) (inst : Instance) : Option UnitItem :=
  u.items.find? fun it => it.inst == inst

/-- Whether an instance is in a unit. -/
def contains (u : CodegenUnit) (inst : Instance) : Bool := (u.find? inst).isSome

/-- The order of units. -/
def le (u v : CodegenUnit) : Bool := largerFirst (u.cost, u.name) (v.cost, v.name)

end CodegenUnit

/-- The short name for a unit with a given name. -/
def hashedUnitName (crate name : String) : String :=
  crate ++ ".cgu." ++ String.ofList (Text.Hash.digits name)

namespace Collection

variable (p : Program) (c : Collection)

/-- The unit that a node is in. -/
def homeOf? (us : List Plan) (i : NodeId) : Option Nat :=
  us.findIdx? fun u => u.nodes.contains i

/-- The linkage of a node in a unit. -/
def linkageOf (us : List Plan) (i : NodeId) (info : Info) (home : Nat) : Linkage :=
  -- this holds of a node without users, so one that nothing needs is hidden
  let usedInside := (c.graph.users i).all fun u => homeOf? us u == some home
  -- a copy is never seen from outside as if it were the original
  if !info.isLocal then
    if usedInside then .internal else .linkOnce
  -- what is public, forced or started from may be referred to from outside the crate
  else if info.provenance.visibility != .everyone && !info.provenance.forced && !c.isRoot i &&
      usedInside then .internal
  else .external

/-- What a unit holds for a node. -/
def unitItem (us : List Plan) (home : Nat) (i : NodeId) : Option UnitItem :=
  (c.member? i).map fun m =>
    { inst := m.inst
      symbol := m.symbol
      linkage := c.linkageOf us i m.info home
      visibility := m.info.provenance.visibility
      size := m.info.size }

/-- The unit that a plan becomes. -/
def unitOf (readable : Bool) (us : List Plan) (home : Nat) (u : Plan) : CodegenUnit where
  name := if readable then u.name else hashedUnitName p.localName u.name
  items := (u.nodes.filterMap (c.unitItem us home)).mergeSort fun a b => Text.le a.symbol b.symbol
  cost := u.cost

/-- Cuts the collected instances into codegen units, the largest first. -/
def partition (config : Config) : Except Error (List CodegenUnit) := do
  -- the plans are checked as they will be emitted, so after they are joined
  let us := Plan.mergeTo config.units (c.place p)
  c.check p us
  return (us.mapIdx (c.unitOf p config.readableNames us)).mergeSort CodegenUnit.le

end Collection

end Monomorph
