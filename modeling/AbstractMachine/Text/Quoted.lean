/-
# AbstractMachine.Text.Quoted — names in quotes

A message that mentions a name quotes it. Single quotes are used, unless the name holds a single
quote and no double one. A backslash and the quote itself are escaped by a backslash, line feed,
carriage return and tab by their letters, and every other character that does not print by its
number in two, four or eight hexadecimal digits.
-/
import AbstractMachine.Text.Number
import AbstractMachine.Text.Unprinted

namespace AbstractMachine.Text

/-- The number of a character that does not print, in two, four or eight digits. -/
def numbered (c : Char) : List Char :=
  let n := c.toNat
  let (mark, width) := if n < 0x100 then ('x', 2) else if n < 0x10000 then ('u', 4) else ('U', 8)
  '\\' :: mark :: (hexDigits width n).toList

/-- One character of quoted text. -/
def escaped (quote c : Char) : List Char :=
  if c == quote || c == '\\' then ['\\', c]
  else if c == '\n' then ['\\', 'n']
  else if c == '\r' then ['\\', 'r']
  else if c == '\t' then ['\\', 't']
  else if isPrinted c then [c]
  else numbered c

/-- The quote for a text: single, unless the text holds a single one and no double one. -/
def quoteFor (cs : List Char) : Char :=
  if cs.contains '\'' && !cs.contains '"' then '"' else '\''

/-- A text in quotes. -/
def quoted (s : String) : String :=
  let quote := quoteFor s.toList
  String.ofList (quote :: s.toList.flatMap (escaped quote) ++ [quote])

end AbstractMachine.Text
