import Monomorph.Diagnostic.Code
import Monomorph.Diagnostic.Span
import Monomorph.Text.Lines

/-!
# Diagnostics

A diagnostic is what the user reads: a code, a message, the places it points at, the context in
which the fault arose and advice on how to mend it. It is built up step by step and written out
once. Labels on `Span.dummy` have nowhere to point to and are left out when the diagnostic is
built, so the first label kept is always a real place.
-/

namespace Monomorph

/-- Whether a diagnostic stops compilation. -/
inductive Severity where
  | error
  | warning
  deriving DecidableEq, Repr, Inhabited

/-- The written form of a severity. -/
def Severity.text : Severity → String
  | .error => "error"
  | .warning => "warning"

/-- A place in the source with a remark. -/
structure Label where
  span : Span
  text : String
  deriving DecidableEq, Repr

/-- A message for the user. The first label is the primary place. -/
structure Diagnostic where
  code : Code
  severity : Severity
  message : String := ""
  labels : List Label := []
  notes : List String := []
  suggestions : List String := []
  deriving DecidableEq, Repr

namespace Diagnostic

/-- An empty error. -/
def error (code : Code) : Diagnostic := { code, severity := .error }

/-- An empty warning. -/
def warning (code : Code) : Diagnostic := { code, severity := .warning }

/-- Sets the message. -/
def withMessage (d : Diagnostic) (message : String) : Diagnostic := { d with message }

/-- Points at a place, unless the place is code without source text. -/
def withLabel (d : Diagnostic) (span : Span) (text : String) : Diagnostic :=
  if span.isDummy then d else { d with labels := d.labels ++ [⟨span, text⟩] }

/-- Adds a line of context. -/
def withNote (d : Diagnostic) (note : String) : Diagnostic :=
  { d with notes := d.notes ++ [note] }

/-- Adds a line of advice. -/
def withSuggestion (d : Diagnostic) (suggestion : String) : Diagnostic :=
  { d with suggestions := d.suggestions ++ [suggestion] }

/-- The first place the diagnostic points at. -/
def primary? (d : Diagnostic) : Option Span := d.labels.head?.map Label.span

/-- Whether the diagnostic reports an error. -/
def isError (d : Diagnostic) : Bool := d.severity == .error

/-- Whether the diagnostic is a warning. -/
def isWarning (d : Diagnostic) : Bool := d.severity == .warning

/-- The lines for the labels: an arrow before the first, blanks before the others. -/
def labelLines (labels : List Label) : List String :=
  match labels with
  | [] => []
  | l :: ls => line "-->" l :: ls.map (line "   ")
where
  line (marker : String) (l : Label) : String :=
    "  " ++ marker ++ " " ++ l.span.text ++ ": " ++ l.text

/-- The written form: severity, code and message, then a line for each label, note and piece of
    advice. -/
def text (d : Diagnostic) : String :=
  Text.lines <|
    (d.severity.text ++ " [" ++ d.code.text ++ "]: " ++ d.message) ::
      (labelLines d.labels ++ d.notes.map ("  = note: " ++ ·) ++
        d.suggestions.map ("  = help: " ++ ·))

/-- A label without a place in the source is left out. -/
theorem withLabel_dummy (d : Diagnostic) (text : String) : d.withLabel .dummy text = d := rfl

/-- No label of a diagnostic built by `withLabel` points at code without source text. -/
theorem mem_labels_withLabel {d : Diagnostic} {span : Span} {text : String} {l : Label} :
    l ∈ (d.withLabel span text).labels ↔
      l ∈ d.labels ∨ (l = ⟨span, text⟩ ∧ span.isDummy = false) := by
  unfold withLabel
  cases h : span.isDummy <;> simp [or_comm]

end Diagnostic

end Monomorph
