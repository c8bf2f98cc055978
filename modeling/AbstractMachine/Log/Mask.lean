/-
# AbstractMachine.Log.Mask — text that does not depend on when it was written

Two things in a line of the log differ from run to run: the time of day at its beginning, and a
duration at its end. Masking puts fixed texts in their places, whoever wrote them.

This is no part of the interpreter: neither the logger nor a machine masks anything. It is for who
compares the logs of two runs, or a log with one that was recorded. A logger takes its clock and its
durations from outside, so it can be given the fixed texts to begin with. Masking also finds times in
the messages themselves.
-/
import AbstractMachine.Text.Digit

namespace AbstractMachine.Mask

/-- What stands for a time of day. -/
def clock : String := "HH:MM:SS"

/-- What stands for a duration. -/
def duration : String := "T"

/-- The sequence that turns the colour of the clock on. -/
def clockColour : List Char := "\x1b[90m".toList

/-- Whether a text has a form, in which `0` stands for a digit and every other character for
itself. -/
def hasForm (form text : List Char) : Bool :=
  form.length == text.length
    && (form.zip text).all fun (f, c) => if f == '0' then (Text.digit? c).isSome else f == c

/-- Mask a time of day that a text begins with. -/
def maskClock (cs : List Char) : List Char :=
  if hasForm "00:00:00".toList (cs.take 8) then clock.toList ++ cs.drop 8 else cs

/-- Mask a time of day at the beginning of a line, in colour or not. -/
def maskStart (cs : List Char) : List Char :=
  if clockColour.isPrefixOf cs then clockColour ++ maskClock (cs.drop clockColour.length)
  else maskClock cs

/-- Mask a duration at the end of a line: a colon, a blank, digits, a point, and three digits of a
second. The line is given from its end. -/
def maskEnd (reversed : List Char) : List Char :=
  let whole := reversed.drop 5
  match whole.takeWhile (fun c => (Text.digit? c).isSome),
      whole.dropWhile (fun c => (Text.digit? c).isSome) with
  | _ :: _, ' ' :: ':' :: rest =>
      if hasForm "s000.".toList (reversed.take 5) then duration.toList.reverse ++ ' ' :: ':' :: rest
      else reversed
  | _, _ => reversed

/-- A text with the times masked in each of its lines. -/
def masked (s : String) : String :=
  "\n".intercalate <| (s.splitOn "\n").map fun line =>
    String.ofList (maskEnd (maskStart line.toList).reverse).reverse

end AbstractMachine.Mask
