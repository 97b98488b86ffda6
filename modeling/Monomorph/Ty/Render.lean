import Monomorph.Ty.Basic
import Monomorph.Text.Lines

/-!
# The written form of types

Types are written from names of items and parameters that the reader of the text knows; `Names`
says what those are. The written form of a type depends on its structure and these names alone.
-/

namespace Monomorph

/-- What items and parameters are called in a text. -/
structure Names where
  item : ItemId → String
  param : Nat → String

namespace Names

/-- The name of a parameter where nothing better is known. -/
def anonymousParam (i : Nat) : String := "^" ++ toString i

end Names

/-- The written form of a constant. -/
def Const.text (names : Names) : Const → String
  | .value n => toString n
  | .param i => names.param i

/-- The written form of a slot. -/
def Arg.text (names : Names) : Arg String → String
  | .ty s => s
  | .const c => c.text names

/-- The written form of an argument list: nothing at all when it is empty. -/
def argsText (names : Names) : List (Arg String) → String
  | [] => ""
  | as => "<" ++ Text.commas (as.map (Arg.text names)) ++ ">"

/-- What stands in front of the type that is wrapped. -/
def Wrapper.opening : Wrapper → String
  | .slice => "["
  | .ref .shared => "&"
  | .ref .exclusive => "&mut "
  | .raw .shared => "*const "
  | .raw .exclusive => "*mut "
  | .box => "Box<"

/-- What stands behind the type that is wrapped. -/
def Wrapper.closing : Wrapper → String
  | .slice => "]"
  | .ref _ | .raw _ => ""
  | .box => ">"

/-- What stands in front of the item's name. -/
def Nominal.opening : Nominal → String
  | .adt => ""
  | .fnDef => "fn-item "
  | .closure => "closure@"

/-- The written form of a tuple. A single element is followed by a comma. -/
def tupleText : List String → String
  | [s] => "(" ++ s ++ ",)"
  | ss => "(" ++ Text.commas ss ++ ")"

/-- The written form of a node, where those of its children are known. -/
def TyNode.text (names : Names) : TyNode String → String
  | .prim p => p.text
  | .tuple ss => tupleText ss
  | .array s n => "[" ++ s ++ "; " ++ n.text names ++ "]"
  | .wrap w s => w.opening ++ s ++ w.closing
  | .nominal k i as => k.opening ++ names.item i ++ argsText names as
  | .dyn i => "dyn " ++ names.item i
  | .fnPtr ins out => "fn(" ++ Text.commas ins ++ ") -> " ++ out
  | .param i => names.param i

namespace Ty

/-- The written form of a type. -/
def text (names : Names) : Ty → String := fold (TyNode.text names)

/-- A type's text is put together from the texts of its parts. -/
theorem text_of (names : Names) (n : TyNode Ty) :
    (of n).text names = (n.map (text names)).text names :=
  fold_of _ n

end Ty

/-- The written form of an argument list. -/
def Args.text (names : Names) (args : Args) : String :=
  argsText names (args.map (Arg.map (Ty.text names)))

/-- No argument is written as nothing, without brackets. -/
@[simp] theorem Args.text_nil (names : Names) : Args.text names [] = "" := rfl

end Monomorph
