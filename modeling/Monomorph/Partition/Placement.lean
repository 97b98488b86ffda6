import Monomorph.Collect.Items
import Monomorph.Text.Path

/-!
# Placement

Every instance for which code is generated goes into a bucket that its origin decides: local code
of one region is kept apart from code that comes from generic items or from the compiler, since the
former changes only when its source does; copies of items from other crates have buckets of their
own. A bucket becomes a codegen unit. Units are told apart by name, so buckets that are given one
name share a unit.
-/

namespace Monomorph

/-- Where an instance belongs. -/
inductive Bucket where
  /-- Local code of one region that is not generic. -/
  | stable (region : RegionId)
  /-- Local generic code and code made by the compiler, by the region it is about. -/
  | volatile (region : Option RegionId)
  /-- Copies of items of other crates that are not generic. -/
  | externInline
  /-- Copies of generic items of another crate. -/
  | externGeneric (c : CrateId)
  deriving DecidableEq, Repr

/-- The bucket of an instance, if code is generated for it here. -/
def bucketOf? (info : Info) (what : InstanceDef) : Option Bucket :=
  if !info.isGenerated then none
  -- code that the compiler makes changes with what it is made from
  else if what.isSynthetic then some (.volatile info.region)
  else if info.isLocal then
    if info.isGeneric then some (.volatile info.region)
    else match info.region with
      | some r => some (.stable r)
      -- without a region there is nothing to keep it apart from
      | none => some (.volatile none)
  else if info.isGeneric then some (.externGeneric info.provenance.origin)
  else some .externInline

namespace Program

variable (p : Program)

/-- A region as a part of a unit's name. -/
def regionLabel (r : RegionId) : String :=
  String.ofList (Text.replaceColons ['-'] (p.regionName r).toList)

/-- The name of the unit for a bucket. -/
def unitName (b : Bucket) : String :=
  p.localName ++ "." ++
    match b with
    | .stable r => p.regionLabel r
    | .volatile (some r) => p.regionLabel r ++ "-volatile"
    | .volatile none => "fallback-volatile"
    | .externInline => "extern-inline"
    | .externGeneric c => "extern-generic." ++ p.crateName c

end Program

/-- A unit while it is put together. -/
structure Plan where
  name : String
  buckets : List Bucket := []
  nodes : List NodeId := []
  /-- The sizes of the instances together, at most `maxLength`. -/
  cost : Nat := 0
  deriving DecidableEq

namespace Plan

/-- Adds an instance of a bucket to a unit. -/
def add (u : Plan) (b : Bucket) (node : NodeId) (size : Nat) : Plan :=
  { u with
    -- buckets with one name share the unit, and each of them is listed once
    buckets := if u.buckets.contains b then u.buckets else u.buckets ++ [b]
    nodes := u.nodes ++ [node]
    cost := satAdd u.cost size }

/-- Adds an instance to the unit of a given name, which is opened if there is none. -/
def addTo (name : String) (b : Bucket) (node : NodeId) (size : Nat) : List Plan → List Plan
  | [] => [({ name } : Plan).add b node size]
  | u :: us => if u.name = name then u.add b node size :: us else u :: addTo name b node size us

end Plan

namespace Collection

variable (p : Program) (c : Collection)

/-- The bucket of a node, if code is generated for it here. -/
def bucket? (i : NodeId) : Option Bucket :=
  (c.member? i).bind fun m => bucketOf? m.info m.inst.what

/-- The size of a node. -/
def sizeOf (i : NodeId) : Nat :=
  match c.member? i with
  | some m => m.info.size
  | none => 0

/-- Puts a node into the unit of its bucket. -/
def placeNode (us : List Plan) (i : NodeId) : List Plan :=
  match c.bucket? i with
  | some b => Plan.addTo (p.unitName b) b i (c.sizeOf i) us
  | none => us

/-- The units before any are joined, in the order of their names. -/
def place : List Plan :=
  (c.graph.ids.foldl (c.placeNode p) []).mergeSort fun u v => Text.le u.name v.name

end Collection

end Monomorph
