/-!
# Joining pieces of text

Lists of pieces are written with a separator between neighbours and none at the ends.
-/

namespace Monomorph.Text

/-- The pieces in order with `sep` between neighbours. -/
def join (sep : String) : List String → String
  | [] => ""
  | [s] => s
  | s :: rest => s ++ sep ++ join sep rest

/-- The pieces with a comma and a blank between neighbours. -/
def commas : List String → String := join ", "

/-- The pieces on lines of their own, without a final line break. -/
def lines : List String → String := join "\n"

/-- Nothing joins to the empty text. -/
@[simp] theorem join_nil (sep : String) : join sep [] = "" := rfl

/-- One text is joined without a separator. -/
@[simp] theorem join_singleton (sep s : String) : join sep [s] = s := rfl

/-- A separator stands between each text and the next. -/
theorem join_cons_cons (sep s t : String) (rest : List String) :
    join sep (s :: t :: rest) = s ++ sep ++ join sep (t :: rest) := rfl

end Monomorph.Text
