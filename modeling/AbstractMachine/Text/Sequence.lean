/-
# AbstractMachine.Text.Sequence — lists as text

Items are separated by a comma and a blank. A list stands in square brackets. A tuple stands in
round ones, and a comma follows its only item, so that `(x,)` is told from a bracketed `(x)`.
-/

namespace AbstractMachine.Text

/-- Items with commas between them. -/
def commaSeparated (items : List String) : String :=
  ", ".intercalate items

/-- A list: `[a, b]`. -/
def listed (items : List String) : String :=
  "[" ++ commaSeparated items ++ "]"

/-- A tuple: `()`, `(a,)`, `(a, b)`. -/
def tupled : List String → String
  | [item] => "(" ++ item ++ ",)"
  | items => "(" ++ commaSeparated items ++ ")"

/-- A truth value: `True`, `False`. -/
def truth (b : Bool) : String :=
  if b then "True" else "False"

end AbstractMachine.Text
