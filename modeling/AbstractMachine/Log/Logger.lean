/-
# AbstractMachine.Log.Logger — keeping and showing the log

A logger keeps entries, up to a number of them and whatever their level, and writes those that its
level allows. Warnings and errors are written at every level and not kept. Entries are stamped with
the step that was announced last.

A logger does not read the time. The clock that stands before each line, and the time that a timer
took, are texts that it is given.

A `Relay` takes over the records of a second log, one that has five severities and a threshold of
its own. Serious records become warnings and errors, the others entries.
-/
import AbstractMachine.Log.Entry
import AbstractMachine.Table

namespace AbstractMachine

/-- The state of a log. -/
structure Logger where
  level : LogLevel := .normal
  colour : Bool := false
  /-- How many entries are kept. -/
  capacity : Int := 10000
  /-- The text that stands for the time. -/
  clock : String
  step : Option Int := none
  /-- What is kept, in order. -/
  entries : Array LogEntry := #[]
  /-- The lines that were written, in order. -/
  shown : Array String := #[]
  counters : Table String Int := {}

namespace Logger

/-- Write a line. -/
def write (l : Logger) (line : String) : Logger :=
  { l with shown := l.shown.push line }

/-- Keep an entry, if there is room. -/
def retain (l : Logger) (e : LogEntry) : Logger :=
  if l.entries.size < l.capacity then { l with entries := l.entries.push e } else l

/-- Keep an entry, and write it if the level allows. -/
def add (l : Logger) (e : LogEntry) : Logger :=
  let l := l.retain e
  if e.level.rank ≤ l.level.rank then l.write (e.format l.colour (some l.clock)) else l

/-- Log a message, stamped with the current step. -/
def log (l : Logger) (level : LogLevel) (message : String)
    (category : String := LogCategory.general.name) : Logger :=
  l.add { level, message, category, step := l.step }

/-- A warning, written at every level. -/
def warning (l : Logger) (message : String) : Logger :=
  l.write (paint "⚠" .yellow l.colour ++ " " ++ message)

/-- An error, written at every level. -/
def error (l : Logger) (message : String) : Logger :=
  l.write (paint "✗" .red l.colour ++ " " ++ message)

/-- The end of something that was timed. -/
def timed (l : Logger) (name elapsed : String) : Logger :=
  l.log .verbose (name ++ ": " ++ elapsed) LogCategory.timing.name

/-- Announce a step, or that no machine runs. -/
def atStep (l : Logger) (step : Option Int) : Logger :=
  { l with step }

/-- The value of a counter; one that was never raised is zero. -/
def countOf (l : Logger) (name : String) : Int :=
  (l.counters.find? name).getD 0

/-- Raise a counter. -/
def count (l : Logger) (name : String) (increment : Int := 1) : Logger :=
  { l with counters := l.counters.insert name (l.countOf name + increment) }

/-- The kept entries of a level, category and step, each if it is given. -/
def select (l : Logger) (level : Option LogLevel) (category : Option String)
    (step : Option Int) : List LogEntry :=
  l.entries.toList.filter fun e =>
    level.all (e.level == ·) && category.all (e.category == ·) && step.all (e.step == some ·)

/-- Forget what is kept, the counters and the step. -/
def clear (l : Logger) : Logger :=
  { l with entries := #[], counters := {}, step := none }

/-- All that was written. -/
def output (l : Logger) : String :=
  String.join (l.shown.toList.map (· ++ "\n"))

theorem countOf_count (l : Logger) (name other : String) (n : Int) :
    (l.count name n).countOf other = l.countOf other + if name = other then n else 0 := by
  by_cases h : name = other <;> simp [countOf, count, Table.find?_insert, h, eq_comm]

/-- What is kept never grows beyond the capacity. -/
theorem size_retain (l : Logger) (e : LogEntry) :
    ((l.retain e).entries.size : Int) ≤ max l.capacity l.entries.size := by
  unfold retain
  split
  · simp; omega
  · omega

end Logger

/-! ## Relayed records -/

/-- How serious a record of the other log is. -/
inductive Severity where
  | debug
  | info
  | warning
  | error
  | critical
  deriving DecidableEq

namespace Severity

/-- The severities from the least serious on. -/
def all : List Severity := [debug, info, warning, error, critical]

/-- The place of a severity, the least serious being zero. -/
def rank : Severity → Nat
  | debug => 0
  | info => 1
  | warning => 2
  | error => 3
  | critical => 4

/-- The name of a severity, in lower case. -/
def name : Severity → String
  | debug => "debug"
  | info => "info"
  | warning => "warning"
  | error => "error"
  | critical => "critical"

end Severity

/-- The severity at which the other log is heard, or as which it takes a record, by name. Some have
two names, and no threshold of its own means the usual one. -/
def Severity.named? (s : String) : Option Severity :=
  let others := [("warn", warning), ("fatal", critical), ("notset", warning)]
  (Severity.all.map fun v => (v.name, v)) ++ others |>.lookup s.toLower

/-- What the other log passes on: records from a threshold on. -/
structure Relay where
  threshold : Severity

namespace Relay

/-- Take over one record. -/
def deliver (l : Logger) (severity : Severity) (message : String) : Logger :=
  match severity with
  | .debug => l.log .debug message LogCategory.relayed.name
  | .info => l.log .normal message LogCategory.relayed.name
  | .warning => l.warning message
  | .error => l.error message
  | .critical => l.error message

/-- Pass on a record that reaches the threshold. -/
def pass (r : Relay) (l : Logger) (severity : Severity) (message : String) : Logger :=
  if r.threshold.rank ≤ severity.rank then deliver l severity message else l

end Relay

end AbstractMachine
