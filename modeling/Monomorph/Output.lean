import Monomorph.Partition.Units

/-!
# A whole run

A run collects the instances of a program, ends the analysis and cuts the instances into codegen
units. An inconsistent analysis outranks all errors of the collection, for nothing that was built
on it can be trusted.
-/

namespace Monomorph

/-- What a run gives. -/
structure Output where
  items : Collection
  /-- The codegen units, the largest first. -/
  units : List CodegenUnit
  /-- What the analysis found, for later use. -/
  unused : UnusedTable

namespace Output

/-- The places of an instance, each with its linkage. -/
def homes (o : Output) (inst : Instance) : List String :=
  o.units.filterMap fun u => (u.find? inst).map fun it => u.name ++ "[" ++ it.linkage.text ++ "]"

/-- The line of the report for an instance. -/
def reportLine (text : String) (homes : List String) : String :=
  -- an instance without a place has nothing behind it, not even the mark of places
  "MONO_ITEM " ++ text ++ (if homes.isEmpty then "" else " @@ " ++ Text.join " " homes) ++ "\n"

/-- Lines are ordered by the instance and then by its places, both as texts. -/
def lineLe (a b : String × List String) : Bool := Text.leList (a.1 :: a.2) (b.1 :: b.2)

/-- A line for each instance that says where it was placed. Instances that another crate has
    are listed without a place. -/
def report (p : Program) (o : Output) : String :=
  let lines := o.items.members.map fun m => (m.inst.text p, o.homes m.inst)
  String.join ((lines.mergeSort lineLe).map fun l => reportLine l.1 l.2)

end Output

/-- Collects the instances of a program and cuts them into codegen units. -/
def Program.monomorphize (p : Program) (config : Config) (fuel : Nat) :
    Option (Except (List Error) Output) := do
  let collected ← p.collect config { enabled := config.polymorphize } fuel
  -- a conflict is reported alone, whatever the walk has come to
  return match collected.analyzer.freeze with
    | .error conflict => .error [p.conflictError conflict]
    | .ok unused => do
      let items ← collected.outcome
      match items.partition p config with
      | .error e => .error [e]
      | .ok units => .ok { items, units, unused }

end Monomorph
