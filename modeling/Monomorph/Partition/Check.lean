import Monomorph.Partition.Merge

/-!
# The check of the units

Placing and joining keep some rules, and once the units are joined these are checked: no unit is
empty, no bucket lies in two units, an instance is placed once and in the unit of its bucket, and an
instance that is linked from elsewhere is not placed. The check goes through the units first and
through the nodes second, and stops at the first rule that is broken.

The reports never show as long as the rules are kept (`Collection.check_eq_ok_iff`); they guard
against changes to the passes before.
-/

namespace Monomorph

/-- The form of a bucket in a report. -/
def Bucket.text : Bucket → String
  | stable r => "Stable(RegionId(" ++ toString r ++ "))"
  | volatile (some r) => "Volatile(Some(RegionId(" ++ toString r ++ ")))"
  | volatile none => "Volatile(None)"
  | externInline => "ExternInline"
  | externGeneric c => "ExternGeneric(CrateId(" ++ toString c ++ "))"

/-- The units, given by their numbers, in which nodes and buckets were found. -/
structure Homes where
  ofNode : Array (Option Nat)
  /-- The buckets found so far, the latest first. -/
  ofBucket : List (Bucket × Nat)
  deriving DecidableEq

namespace Homes

/-- Before any unit is gone through, nothing has a home. -/
def empty (size : Nat) : Homes := ⟨Array.replicate size none, []⟩

variable (h : Homes)

/-- The unit that a node was found in. -/
def node? (i : NodeId) : Option Nat := h.ofNode[i]?.join

/-- The unit that a bucket was found in last. -/
def bucket? (b : Bucket) : Option Nat := h.ofBucket.lookup b

/-- Enters a unit for a node. -/
def setNode (i : NodeId) (home : Nat) : Homes :=
  { h with ofNode := h.ofNode.setIfInBounds i (some home) }

/-- Enters a unit for a bucket. -/
def setBucket (b : Bucket) (home : Nat) : Homes :=
  { h with ofBucket := (b, home) :: h.ofBucket }

end Homes

namespace Collection

variable (p : Program) (c : Collection)

/-- The text of the instance at a node. -/
def textAt (i : NodeId) : String := ((c.member? i).map fun m => m.inst.text p).getD ""

/-- The name of a unit that is given by its number. -/
def planName (us : List Plan) (home : Nat) : String := (us[home]?.map Plan.name).getD ""

/-- Enters a bucket of a unit. If it was found before, then in the same unit. -/
def enterBucket (us : List Plan) (u : Plan) (home : Nat) (h : Homes) (b : Bucket) :
    Except Error Homes :=
  match h.bucket? b with
  | some other =>
    -- a bucket may come back in the unit that it was found in
    if other ≠ home then
      .error (.placement ("bucket " ++ b.text ++ " is split across `" ++ planName us other ++
        "` and `" ++ u.name ++ "`"))
    else .ok (h.setBucket b home)
  | none => .ok (h.setBucket b home)

/-- Enters a node of a unit. It was not found before, not even in the same unit. -/
def enterNode (us : List Plan) (u : Plan) (home : Nat) (h : Homes) (i : NodeId) :
    Except Error Homes :=
  match h.node? i with
  | some other =>
    .error (.placement ("`" ++ c.textAt p i ++ "` is placed in both `" ++ planName us other ++
      "` and `" ++ u.name ++ "`"))
  | none => .ok (h.setNode i home)

/-- Enters a unit: its buckets first, its nodes second. -/
def enterUnit (us : List Plan) (h : Homes) : Plan × Nat → Except Error Homes
  | (u, home) =>
    if u.nodes.isEmpty then .error (.placement ("codegen unit `" ++ u.name ++ "` is empty"))
    else do
      let h ← u.buckets.foldlM (enterBucket us u home) h
      u.nodes.foldlM (c.enterNode p us u home) h

/-- The nodes for which no code is generated here. -/
def excluded : List NodeId := c.graph.ids.filter fun i => (c.bucket? i).isNone

/-- Checks a node for which no code is generated: it is in no unit. -/
def checkExcluded (us : List Plan) (h : Homes) (i : NodeId) : Except Error Unit :=
  match h.node? i with
  | some home =>
    .error (.placement ("`" ++ c.textAt p i ++ "` is linked externally but placed in `" ++
      planName us home ++ "`"))
  | none => .ok ()

/-- Checks a node for which code is generated: it is in the unit of its bucket. -/
def checkPlaced (h : Homes) (i : NodeId) : Except Error Unit :=
  match c.bucket? i with
  -- nothing has to hold here: these nodes have been checked before
  | none => .ok ()
  | some b =>
    match h.node? i with
    | none => .error (.placement ("`" ++ c.textAt p i ++ "` is not placed in any unit"))
    | some home =>
      if h.bucket? b ≠ some home then
        .error (.placement ("`" ++ c.textAt p i ++ "` is separated from its bucket " ++ b.text))
      else .ok ()

/-- Checks the units. -/
def check (us : List Plan) : Except Error Unit := do
  let h ← us.zipIdx.foldlM (c.enterUnit p us) (Homes.empty c.size)
  c.excluded.forM (c.checkExcluded p us h)
  c.graph.ids.forM (c.checkPlaced p h)

end Collection

end Monomorph
