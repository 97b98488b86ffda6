import Monomorph.Config
import Monomorph.Diagnostic.Basic
import Monomorph.Positions
import Monomorph.Program.Basic

/-!
# Roots

The walk starts from the items that have to exist whether or not anything uses them: entry points,
statics and items with forced linkage, and in eager mode every function that can stand alone. A
generic item among them has no arguments to start with; it is left out and the user is warned.
-/

namespace Monomorph

namespace Program

variable (p : Program)

/-- Whether eager mode adds an item: a function or method of a block that has a body and no
    parameters. -/
def isEagerRoot (it : Item) : Bool :=
  (match it.kind with
    | .fn | .implMethod _ => true
    | _ => false) && it.generics.isEmpty && it.body.isSome

/-- Whether an item of the program has to exist, entry points apart. -/
def isForcedRoot (mode : Mode) (it : Item) : Bool :=
  -- what another crate has is not started from, even if it is forced
  it.provenance.isLocal && (it.kind.isCallable || it.kind.isStatic) &&
    (it.provenance.forced || it.kind.isStatic || (mode == .eager && isEagerRoot it))

/-- The items that have to exist, each once: entry points first. -/
def rootCandidates (mode : Mode) : List ItemId :=
  -- an entry point that has to exist anyway keeps its place among the entry points
  (p.entries ++ p.itemsWhere (isForcedRoot mode)).eraseDups

/-- The items that the walk starts from, in their order: the candidates without parameters. An entry
    point that is no item of the program is passed over. -/
def rootItems (mode : Mode) : List ItemId :=
  Positions.sort <| (p.rootCandidates mode).filter fun i =>
    decide (i < p.items.size) && (p.item i).generics.isEmpty

/-- The warning for a generic item that has to exist. -/
def genericRootWarning (i : ItemId) : Diagnostic :=
  ((Diagnostic.warning .genericRoot).withMessage
    ("`" ++ (p.item i).path ++ "` is generic and cannot be a monomorphization root")).withLabel
      (p.item i).span "declared here"

/-- The warnings about generic items, in the order of the candidates. -/
def rootWarnings (mode : Mode) : List Diagnostic :=
  ((p.rootCandidates mode).filter fun i => !(p.item i).generics.isEmpty).map p.genericRootWarning

/-- The root items are the candidates with nothing to instantiate. -/
theorem mem_rootItems {mode : Mode} {i : ItemId} :
    i ∈ p.rootItems mode ↔ i < p.items.size ∧ i ∈ p.rootCandidates mode ∧
      (p.item i).generics.isEmpty = true := by
  simp [rootItems, and_left_comm]

end Program

end Monomorph
