/-
# AbstractMachine.Report — how a run ended, and what it left

A run that came to its end has an outcome, and so has every kind of fault that is an answer about the
program. A defect is no answer: it has no outcome, and neither has anything that is not the
machine's own, or an end that comes before the program has begun.

The summary is for people: a head line, the figures, and below them whatever message and output
there is.
-/
import AbstractMachine.Datum
import AbstractMachine.Fault.Message
import AbstractMachine.Log.Clock

namespace AbstractMachine

/-- How a run ended. -/
inductive Outcome where
  | terminated
  | undefinedBehavior
  | panicked
  | noValidChoice
  | stepLimit
  | solverTimeout
  deriving DecidableEq

namespace Outcome

/-- All outcomes. -/
def all : List Outcome :=
  [terminated, undefinedBehavior, panicked, noValidChoice, stepLimit, solverTimeout]

/-- The name of an outcome. -/
def name : Outcome → String
  | terminated => "terminated"
  | undefinedBehavior => "undefined_behavior"
  | panicked => "panicked"
  | noValidChoice => "no_valid_choice"
  | stepLimit => "step_limit"
  | solverTimeout => "solver_timeout"

/-- The outcome of a name. -/
def ofName? (s : String) : Option Outcome :=
  all.find? (·.name == s)

/-- The outcome of a name that has to be one. -/
def named (s : String) : Except Fault Outcome :=
  (ofName? s).elim (.error (.setting .outcome)) .ok

/-- The outcome of a run that ended in a fault, if the fault is an answer about the program. -/
def ofFault? : Fault → Option Outcome
  | .terminated => none
  | .undefined _ => some undefinedBehavior
  | .panicked _ => some panicked
  | .noChoice _ => some noValidChoice
  | .stepLimit _ => some stepLimit
  | .solverTimeout _ _ => some solverTimeout
  | .defect _ => none
  | .arithmetic _ => none
  | .setting _ => none

/-- The counter that counts an outcome. -/
def counter (o : Outcome) : String := "outcome." ++ o.name

theorem ofName?_name (o : Outcome) : ofName? o.name = some o := by
  cases o <;> rfl

end Outcome

/-- What is known after a run. -/
structure Report where
  outcome : Outcome
  message : String := ""
  stdout : List String := []
  stderr : List String := []
  steps : Int := 0
  allocations : Int := 0
  strategy : Datum

namespace Report

/-- Whether the program came to its end. -/
def succeeded (r : Report) : Bool := r.outcome == .terminated

/-- Whether the program had undefined behaviour. -/
def isUndefined (r : Report) : Bool := r.outcome == .undefinedBehavior

/-- How the run ended, in one line. -/
def headline (r : Report) : String :=
  let ending := r.outcome.name ++ " after " ++ toString r.steps ++ " steps"
  if r.message = "" then ending else ending ++ ": " ++ r.message

/-- The fraction `n / d`, with two decimals: `-0.25`. -/
def decimal (n : Int) (d : Nat) : String :=
  let h := hundredths n.natAbs d |>.toNat
  (if n < 0 then "-" else "") ++ toString (h / 100) ++ "." ++ twoDigits (h % 100)

/-- Lines of output under their name, if there are any. -/
def outputLines (name : String) (lines : List String) : List String :=
  if lines.isEmpty then [] else "" :: (name ++ ":") :: lines.map ("  " ++ ·)

/-- The summary of a run that took `n / d` seconds. -/
def summary (r : Report) (n : Int) (d : Nat) : String :=
  "\n".intercalate (
    ["=== ubspectre Execution Results ===",
     "Outcome: " ++ r.outcome.name,
     "Steps: " ++ toString r.steps,
     "Allocations: " ++ toString r.allocations,
     "Address strategy: " ++ r.strategy.plain,
     "Total time: " ++ decimal n d ++ "s"]
    ++ (if r.message = "" then [] else ["", r.message])
    ++ outputLines "stdout" r.stdout
    ++ outputLines "stderr" r.stderr)

end Report

end AbstractMachine
