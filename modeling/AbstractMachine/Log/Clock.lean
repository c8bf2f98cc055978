/-
# AbstractMachine.Log.Clock — the time of day

A moment is a number of seconds since the first midnight of 1970. Its time of day has two digits for
each of hours, minutes and seconds. A moment is held with 53 binary digits, and it must lie in a
year that can be counted: years are numbers of 32 bits, and so is the number of years since 1900.
-/
import AbstractMachine.Fault
import AbstractMachine.Precision

namespace AbstractMachine

/-- Two decimal digits. -/
def twoDigits (n : Nat) : String :=
  (if n < 10 then "0" else "") ++ toString n

/-- The time of day of a moment. -/
def timeOfDay (moment : Int) : String :=
  let s := (moment % 86400).toNat
  ":".intercalate [twoDigits (s / 3600), twoDigits (s / 60 % 60), twoDigits (s % 60)]

/-- One past the last moment, as a number of 64 bits. -/
def momentLimit : Int := (1 : Int) <<< (63 : Nat)

/-- The first moment whose year can be counted from 1900. -/
def firstMoment : Int := -67768040609740800

/-- The last moment whose year can be counted from 1900. -/
def lastMoment : Int := 67768036191676799

/-- The last moment whose year can be counted from the beginning. -/
def lastDatedMoment : Int := 67767976233532799

/-- The time of day of a moment that may be out of range. -/
def clockText (seconds : Int) : Except Fault String := do
  let moment := held seconds
  require (-momentLimit ≤ moment && moment < momentLimit) (.arithmetic .overflow)
  require (firstMoment ≤ moment && moment ≤ lastMoment) (.arithmetic .noCalendar)
  require (moment ≤ lastDatedMoment) (.arithmetic .overflow)
  return timeOfDay moment

end AbstractMachine
