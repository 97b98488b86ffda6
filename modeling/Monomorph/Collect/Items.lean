import Monomorph.Collect.Roots
import Monomorph.Collect.Walk
import Monomorph.Instance.Symbol
import Monomorph.Text.Order

/-!
# Collected instances

A collection holds every instance that the program needs, with the graph of their uses. Instances
are numbered in the order of their symbols, so the numbers depend on the program alone. If two
instances have one symbol the linker could not tell them apart and there is no collection.

If some uses could not be resolved there is none either, and the errors are reported in the order
of their wording, equal neighbours once.

All sets of unused parameters are taken from the analyzer before the walk. `Program.collecting` asks
for them on the way.
-/

namespace Monomorph

/-- A collected instance. -/
structure Member where
  inst : Instance
  info : Info
  symbol : String
  deriving DecidableEq

/-- Every instance that a program needs. -/
structure Collection where
  graph : UseGraph Member
  /-- The nodes that the walk started from, in increasing order. -/
  roots : List NodeId
  warnings : List Diagnostic

namespace Collection

variable (c : Collection)

/-- The number of instances. -/
def size : Nat := c.graph.size

/-- Whether there is no instance. -/
def isEmpty : Bool := c.graph.nodes.isEmpty

/-- The collected instances in order. -/
def members : List Member := c.graph.nodes

/-- The instance at a node. -/
def member? (i : NodeId) : Option Member := c.graph.nodes[i]?

/-- The node of an instance. -/
def nodeOf? (inst : Instance) : Option NodeId := c.graph.nodes.findIdx? fun m => m.inst == inst

/-- Whether an instance is collected. -/
def contains (inst : Instance) : Bool := (c.nodeOf? inst).isSome

/-- Whether the walk started from a node. -/
def isRoot (i : NodeId) : Bool := c.roots.contains i

end Collection

/-- The first two neighbours of a list with one symbol. -/
def findClash : List Member → Option (Member × Member)
  -- the list is in symbol order, so instances with one symbol stand next to each other
  | a :: b :: rest => if a.symbol = b.symbol then some (a, b) else findClash (b :: rest)
  | _ => none

namespace Walk

variable (p : Program) (w : Walk)

/-- The instances entered, in the order of their symbols. -/
def members : List Member :=
  (w.records.map fun r => ⟨r.inst, r.info, r.inst.symbol p⟩).mergeSort fun a b =>
    Text.le a.symbol b.symbol

/-- The errors gathered, in the order of their wording. -/
def report : List Error :=
  -- the sort is stable: errors of one wording stay in the order in which they were found
  dropRepeats (w.errors.reverse.mergeSort fun a b => Text.le a.message b.message)

/-- The error for two instances with one symbol. -/
def clashError (a b : Member) : Error :=
  let s := a.inst.text p
  let t := b.inst.text p
  -- named in the order of their texts, so that the report depends on the instances alone
  if Text.le s t then .symbolClash a.symbol s t else .symbolClash a.symbol t s

/-- The edges for the uses of an instance, given the numbers of all instances. -/
def edges (ms : List Member) (inst : Instance) : List Edge :=
  match w.records.find? fun r => r.inst == inst with
  | some r => r.uses.filterMap fun u =>
    (ms.findIdx? fun m => m.inst == u.1).map fun target => ⟨target, u.2⟩
  | none => []

/-- The graph of the instances entered. -/
def graph : UseGraph Member :=
  let ms := w.members p
  .ofUses ms (ms.map fun m => w.edges ms m.inst)

/-- What a walk that has ended comes to. -/
def finish (roots : List Instance) (warnings : List Diagnostic) :
    Except (List Error) Collection :=
  match w.fatal with
  -- the error that ended the walk stands alone
  | some e => .error [e]
  | none =>
    if !w.errors.isEmpty then .error w.report
    else match findClash (w.members p) with
      | some (a, b) => .error [clashError p a b]
      | none =>
        let graph := w.graph p
        -- the roots are looked for again, now that instances have numbers
        let roots := graph.ids.filter fun i =>
          match graph.nodes[i]? with
          | some m => roots.contains m.inst
          | none => false
        .ok ⟨graph, roots, warnings⟩

end Walk

/-- What collecting comes to: the walk, the analyzer as it was left, and the collection or the
    errors. -/
structure CollectResult where
  walk : Walk
  analyzer : Analyzer
  outcome : Except (List Error) Collection

/-- Collects every instance that a program needs. -/
def Program.collect (p : Program) (config : Config) (analyzer : Analyzer) (fuel : Nat) :
    Option CollectResult := do
  -- every set is taken from the analyzer as it was given
  let unused := analyzer.answer p (analyzer.sets p)
  let start := Walk.start p unused (p.rootItems config.mode)
  let walk ← start.run p config unused fuel
  return {
    walk
    analyzer := analyzer.consult p walk.asked
    outcome := walk.finish p start.waiting (p.rootWarnings config.mode) }

end Monomorph
