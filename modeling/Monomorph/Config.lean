/-!
# Settings

The settings of one run: which items seed the walk, how deep and how long the arguments of an
instance may grow, whether instances are shared across unused parameters, and how the result is
cut into codegen units.
-/

namespace Monomorph

/-- Which items seed the walk. -/
inductive Mode where
  /-- Entry points, forced items and statics. -/
  | lazy
  /-- Every local function that can stand alone as well. -/
  | eager
  deriving DecidableEq, Repr, Inhabited

/-- The written form of a mode. -/
def Mode.text : Mode → String
  | .lazy => "lazy"
  | .eager => "eager"

/-- The settings of one run. -/
structure Config where
  /-- How deep the arguments of an instance may be nested. -/
  depthLimit : Nat := 128
  /-- How many nodes the arguments of an instance may have together. -/
  lengthLimit : Nat := 1048576
  /-- Whether instances are shared across unused parameters. -/
  polymorphize : Bool := true
  mode : Mode := .lazy
  /-- How many codegen units are wanted. -/
  units : Nat := 16
  /-- Whether unit names are spelled out; otherwise they are hashed. -/
  readableNames : Bool := true
  /-- How many workers to use; zero leaves the choice to the machine. -/
  jobs : Nat := 0
  deriving DecidableEq, Repr, Inhabited

namespace Config

/-- Asks for a number of units; none counts as one. -/
def withUnits (c : Config) (n : Nat) : Config := { c with units := max n 1 }

/-- The number of workers, where the setting fixes it. -/
def fixedJobs? (c : Config) : Option Nat := if c.jobs = 0 then none else some c.jobs

/-- However many units are asked for, there is at least one. -/
theorem one_le_units_withUnits (c : Config) (n : Nat) : 1 ≤ (c.withUnits n).units :=
  Nat.le_max_right n 1

end Config

end Monomorph
