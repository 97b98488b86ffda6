import Monomorph.Diagnostic.Basic
import Monomorph.Ty.Subst
import Monomorph.Unused.Set

/-!
# Errors

What can go wrong while instances are collected and placed. Instances are carried as texts, so an
error can be reported after the program is gone. `Error.message` is the wording and
`Error.diagnostic` the whole report with its place, its context and advice.
-/

namespace Monomorph

/-- Why an instance cannot be made. -/
inductive Reason where
  /-- Nothing implements a trait for a type. -/
  | noImpl (trait self : String)
  | missingBody
  | argCount (expected found : Nat)
  | subst (e : SubstError)
  | notCallable
  /-- The target is only known when the program runs. -/
  | virtualCall
  deriving DecidableEq, Repr

/-- The wording of a reason. -/
def Reason.message : Reason → String
  | .noImpl trait self => "`" ++ self ++ "` does not implement `" ++ trait ++ "`"
  | .missingBody => "no body is available to instantiate"
  | .argCount expected found =>
    "expected " ++ toString expected ++ " generic argument(s), found " ++ toString found
  | .subst e => e.message
  | .notCallable => "item is not callable"
  | .virtualCall => "call is dispatched through a vtable"

/-- An error of a run. -/
inductive Error where
  /-- The arguments of an instance are nested too deeply. The chain leads from a root to it. -/
  | overflow (inst : String) (limit : Nat) (chain : List String) (span : Span)
  | unresolved (inst : String) (reason : Reason) (span : Span)
  /-- The arguments of an instance are too long. -/
  | typeLength (inst : String) (length limit : Nat) (span : Span)
  /-- The set of unused parameters of an item was computed twice with different results. -/
  | conflict (item : String) (stored computed : ParamSet)
  /-- A rule about codegen units was broken. -/
  | placement (detail : String)
  /-- Two instances have one symbol. -/
  | symbolClash (symbol fst snd : String)
  deriving DecidableEq, Repr

namespace Error

/-- What the error is about. -/
def code : Error → Code
  | overflow .. => .overflow
  | unresolved .. => .unresolved
  | typeLength .. => .typeLength
  | conflict .. => .analysisConflict
  | placement _ => .placement
  | symbolClash .. => .symbolClash

/-- Where the error is, as far as it is anywhere. -/
def span : Error → Span
  | overflow _ _ _ s | unresolved _ _ s | typeLength _ _ _ s => s
  -- these concern the crate as a whole
  | conflict .. | placement _ | symbolClash .. => .dummy

/-- Whether the error ends a run at once. The others are gathered. -/
def isFatal : Error → Bool
  | unresolved .. => false
  | overflow .. | typeLength .. | conflict .. | placement _ | symbolClash .. => true

/-- The wording of an error. -/
def message : Error → String
  | overflow inst limit _ _ =>
    "reached the recursion limit (" ++ toString limit ++ ") while instantiating `" ++ inst ++ "`"
  | unresolved inst reason _ => "cannot instantiate `" ++ inst ++ "`: " ++ reason.message
  | typeLength inst length limit _ =>
    "type length of `" ++ inst ++ "` (" ++ toString length ++ ") exceeds the limit (" ++
      toString limit ++ ")"
  | conflict item stored computed =>
    "unused parameters of `" ++ item ++ "` computed twice with different results: " ++
      stored.text ++ " and " ++ computed.text
  | placement detail => "codegen unit partitioning broke an invariant: " ++ detail
  | symbolClash symbol fst snd =>
    "symbol `" ++ symbol ++ "` was produced for both `" ++ fst ++ "` and `" ++ snd ++ "`"

/-- What the label at the place of the error says. -/
def label : Error → String
  | overflow inst .. => "instantiating `" ++ inst ++ "`"
  | unresolved .. => "required here"
  | typeLength .. => "instantiated here"
  | conflict .. | placement _ | symbolClash .. => ""

/-- The context in which the error arose. -/
def notes : Error → List String
  -- numbered from the root on
  | overflow _ _ chain _ => chain.mapIdx fun i link => "#" ++ toString i ++ ": `" ++ link ++ "`"
  | unresolved .. | typeLength .. => []
  | conflict .. | placement _ | symbolClash .. => ["this is a bug in the compiler"]

/-- How the error can be mended. -/
def suggestions : Error → List String
  | overflow _ limit _ _ =>
    ["a generic function calls itself with ever-growing type arguments; " ++
      "break the cycle or raise `recursion_limit` above " ++ toString limit]
  -- what an author of the program can do depends on the reason
  | unresolved _ (.noImpl trait _) _ =>
    ["add an implementation of `" ++ trait ++ "` for this type"]
  | typeLength _ _ limit _ => ["raise `type_length_limit` above " ++ toString limit]
  | unresolved .. | conflict .. | placement _ | symbolClash .. => []

/-- The whole report. -/
def diagnostic (e : Error) : Diagnostic :=
  let d := ((Diagnostic.error e.code).withMessage e.message).withLabel e.span e.label
  let d := e.notes.foldl Diagnostic.withNote d
  e.suggestions.foldl Diagnostic.withSuggestion d

/-- An error ends a run at once unless it is an unresolved instance. -/
theorem isFatal_iff (e : Error) : e.isFatal = true ↔ e.code ≠ .unresolved := by
  cases e <;> simp [isFatal, code]

end Error

end Monomorph
