/-
# AbstractMachine.Event — what a machine reports of its doings

The machine reports allocations, exposures, casts, steps, calls and returns. Reports are data; how
they are shown is said once, in `Event.entry`. A journal collects them and stamps each with the step
in which it was made.
-/
import AbstractMachine.Log.Logger
import AbstractMachine.Identity
import AbstractMachine.Value.Text

namespace AbstractMachine

/-- Something that a machine did. -/
inductive Event where
  | allocated (id : AllocId) (size addr align : Int)
  | freed (id : AllocId)
  | exposed (id : AllocId)
  | castToPointer (p : Pointer)
  /-- A statement or terminator is about to be executed. -/
  | stepped (function block : String) (index : Nat)
  | called (function caller : String)
  | returned (function : String)
  deriving DecidableEq

namespace Event

/-- How important an event is. -/
def level : Event → LogLevel
  | stepped _ _ _ => .trace
  | _ => .debug

/-- The part of the machine that an event comes from. -/
def category : Event → LogCategory
  | allocated _ _ _ _ => .memory
  | freed _ => .memory
  | exposed _ => .casts
  | castToPointer _ => .casts
  | stepped _ _ _ => .machine
  | called _ _ => .machine
  | returned _ => .machine

/-- An event as text. -/
def message : Event → String
  | allocated id size addr align =>
      "allocate " ++ id.text ++ ": " ++ toString size ++ " bytes at " ++ Text.hex addr
        ++ " (align " ++ toString align ++ ")"
  | freed id => "deallocate " ++ id.text
  | exposed id => "exposed " ++ id.text
  | castToPointer p => "int2ptr " ++ Text.hex p.addr ++ " -> " ++ p.provenance.elim "None" (·.text)
  | stepped function block index => function ++ "/" ++ block ++ "[" ++ toString index ++ "]"
  | called function caller => "call " ++ function ++ " from " ++ caller
  | returned function => "return from " ++ function

/-- An event as an entry of the log, with the step that it is stamped with. -/
def entry (e : Event) (step : Option Int) : LogEntry :=
  { level := e.level, message := e.message, category := e.category.name, step }

end Event

/-- The events so far, and the step that the next ones belong to. -/
structure Journal where
  step : Option Nat := none
  /-- Each event with its stamp, the last one first. -/
  records : List (Option Nat × Event) := []

namespace Journal

/-- Note an event. -/
def note (j : Journal) (e : Event) : Journal :=
  { j with records := (j.step, e) :: j.records }

/-- Announce a step, or that no machine runs. -/
def atStep (j : Journal) (step : Option Nat) : Journal :=
  { j with step }

/-- The entries of the log, in order. -/
def entries (j : Journal) : List LogEntry :=
  j.records.reverse.map fun (step, e) => e.entry (step.map (↑·))

theorem entries_note (j : Journal) (e : Event) :
    (j.note e).entries = j.entries ++ [e.entry (j.step.map (↑·))] := by
  simp [entries, note]

end Journal

/-- Add the entries of a journal, and take over its step. -/
def Logger.addJournal (l : Logger) (j : Journal) : Logger :=
  (j.entries.foldl Logger.add l).atStep (j.step.map (↑·))

end AbstractMachine
