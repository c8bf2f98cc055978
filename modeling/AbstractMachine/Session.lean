/-
# AbstractMachine.Session — running and checking programs

A session runs programs one after the other under one log. Running a program makes a machine from
the settings, runs it, and reports how that ended; only what is an answer about the program becomes
a report, and everything else is passed on as the fault it is. The log gets what the machine noted,
the time that the run took, and one line on how it ended.

The address of an allocation is nobody's choice but the allocator's. A program is right only if it
is right for all choices, so checking runs it under several strategies and reports the first run
that does not come to its end, or the last one.
-/
import AbstractMachine.Fault.Told
import AbstractMachine.Machine.Run
import AbstractMachine.Report
import AbstractMachine.Settings

namespace AbstractMachine

/-- What runs leave behind, besides their reports. -/
structure Session where
  logger : Logger
  /-- The text that stands for the time that a run took. -/
  elapsed : String
  /-- What machines printed, if they were told to. -/
  stdout : List String := []
  stderr : List String := []

/-- How a machine ended: whether it came to its end or failed, and the state of the machine, if it
got past its beginning. -/
structure Ending where
  result : Except Fault Unit
  machine : Option Machine
  journal : Journal

namespace Settings

/-- The machine that the settings describe, before it has done anything. A chooser may be given in
place of the one that is set. -/
def machine (s : Settings) (program : Program) (chooser : Option Chooser) (predictor : Predictor) :
    Except Fault Machine := do
  let target ← s.target
  return Machine.fresh program target (← chooser.elim s.chooser .ok) predictor

/-- A log as the settings describe it, for a stream that takes no colours. -/
def logger (s : Settings) (clock : String) : Except Fault Logger := do
  return { level := ← s.logLevel, clock }

end Settings

namespace Machine

/-- Boot a machine and run it to its end, which comes at the latest when the number of steps is
`limit`. -/
def conclude (m : Machine) (limit : Int) : Ending :=
  match boot m with
  | (.error fault, m) => { result := .error fault, machine := none, journal := m.store.journal }
  | (.ok (), m) =>
      let (result, m) := run limit m
      { result, machine := some m, journal := m.store.journal }

end Machine

namespace Ending

/-- The outcome of an ending, with what there is to say about it, or the fault that is no answer
about the program. -/
def outcome (e : Ending) : Except Fault (Outcome × String) :=
  match e.result with
  | .ok () => .ok (.terminated, "")
  | .error fault =>
      let fault := fault.told
      (Outcome.ofFault? fault).elim (.error fault) fun outcome => .ok (outcome, fault.message)

/-- What is reported of an ending, if it is an answer about the program. -/
def report (e : Ending) (strategy : Datum) : Except Fault Report := do
  let (outcome, message) ← e.outcome
  return { outcome, message, strategy
           stdout := e.machine.elim [] (·.stdout)
           stderr := e.machine.elim [] (·.stderr)
           steps := e.machine.elim 0 (·.steps)
           allocations := e.machine.elim 0 (·.store.memory.allocations.length) }

end Ending

namespace Session

/-- Take over what a machine noted and printed. -/
def absorb (s : Session) (settings : Settings) (e : Ending) : Session :=
  let s := { s with logger := s.logger.addJournal e.journal }
  if settings.echoStdout.isSet then
    { s with stdout := s.stdout ++ e.machine.elim [] (·.stdout)
             stderr := s.stderr ++ e.machine.elim [] (·.stderr) }
  else s

/-- Note that a run is over. -/
def noteTime (s : Session) (settings : Settings) : Session :=
  { s with logger := s.logger.timed ("run (" ++ settings.strategy.plain ++ ")") s.elapsed }

/-- Count a report, and note its headline. -/
def noteReport (s : Session) (r : Report) : Session :=
  { s with logger :=
      (s.logger.count r.outcome.counter).log .verbose r.headline LogCategory.machine.name }

/-- Run a program. -/
def runProgram (program : Program) (settings : Settings) (chooser : Option Chooser)
    (predictor : Predictor) : Action Session Report := fun s =>
  match settings.machine program chooser predictor with
  | .error fault => (.error fault, s.noteTime settings)
  | .ok m =>
      let ending := m.conclude settings.maxSteps
      let s := (s.absorb settings ending).noteTime settings
      match ending.report settings.strategy with
      | .error fault => (.error fault, s)
      | .ok r => (.ok r, s.noteReport r)

/-- Run a program under strategies until one run does not come to its end. -/
def checkProgram (program : Program) (settings : Settings) : List Datum → Action Session Report
  | [] => throw (.setting .noStrategy)
  | strategy :: rest => do
      let r ← runProgram program { settings with strategy } none .standard
      if r.succeeded && !rest.isEmpty then checkProgram program settings rest else return r

/-- The strategy that a text asks for. A word in upper case has to be the name of a strategy; any
other text is taken as it is. -/
def strategyOf (s : String) : Except Fault Datum :=
  if s.toUpper == s && s.toLower != s then
    (Strategy.ofName? s.toLower).elim (.error (.setting .unknownName)) fun known =>
      .ok (.text known.name)
  else .ok (.text s)

/-- The strategies under which a program is checked. -/
def strategies : List Datum := [.text "lowest", .text "highest", .text "random"]

end Session

end AbstractMachine
