/-
# AbstractMachine.Machine.Run — steps and runs

A step executes one statement or one terminator of the innermost frame. A run takes steps until one
of them fails; since the end of a program is a fault like any other, every run ends in one, and at
the latest when the number of steps reaches the limit. The limit is looked at before each step, so a
program that needs exactly as many steps as it allows is not cut off.

Before the first step every function gets its address, in the order of the program, and the start
function its frame.
-/
import AbstractMachine.Machine.Control

namespace AbstractMachine

namespace Machine

/-! ## The beginning -/

/-- A machine that has done nothing yet. -/
def fresh (program : Program) (target : Target) (chooser : Chooser) (predictor : Predictor) :
    Machine :=
  { program, store := { memory := { target, chooser }, casts := { predictor } } }

/-- Give functions their addresses. -/
def placeFunctions : List String → Action Machine Unit
  | [] => pure ()
  | name :: rest => do
      let p ← onStore (Store.allocate 1 1 .function)
      modify fun m => { m with functions := m.functions.insert name p.addr }
      placeFunctions rest

/-- The function that is run. -/
def startFunction (p : Program) : Except Fault Function :=
  match p.functions.find? p.start with
  | none => .error (.defect (.noStartFunction p.start))
  | some f => do
      require f.params.isEmpty (.defect .startTakesArguments)
      return f

/-- Place the functions, and push the frame of the first one. -/
def boot : Action Machine Unit := do
  let program := (← get).program
  placeFunctions program.functions.keys
  let function ← Action.ofExcept (startFunction program)
  let f ← newFrame program.start
  let (_, f) ← beginLocal f function.result
  modify fun m => { m with stack := f :: m.stack }

/-! ## Steps -/

/-- The block in which a frame is, and its name. -/
def currentBlock (f : Frame) : Except Fault (String × Block) :=
  match f.block with
  | none => .error (.defect (.noCurrentBlock f.name))
  | some name =>
      match f.function.blocks.find? name with
      | some block => .ok (name, block)
      | none => .error (.defect (.noBlock f.name name))

/-- Count a step, and note where it is made. -/
def beginStep (f : Frame) (block : String) : Action Machine Unit := do
  modify fun m =>
    let steps := m.steps + 1
    { m with steps, store.journal := m.store.journal.atStep (some steps) }
  note (.stepped f.name block f.index)

/-- Execute the next statement of the innermost frame, or the terminator behind the last one. -/
def step : Action Machine Unit := do
  Action.need (!(← get).terminated) (.defect .alreadyTerminated)
  let f ← frame
  let (name, block) ← Action.ofExcept (currentBlock f)
  beginStep f name
  match block.statements[f.index]? with
  | some s => do
      execute s
      modifyFrame fun f => { f with index := f.index + 1 }
  | none => finish block.terminator

/-! ## Runs -/

/-- How a run of at most `n` steps ends, and in which state. -/
def runFor : Nat → Machine → Fault × Machine
  | 0, m => (.stepLimit m.steps, m)
  | n + 1, m =>
      match step m with
      | (.ok (), m) => runFor n m
      | (.error f, m) => (f, m)

theorem runFor_of_step_ok {n : Nat} {m m' : Machine} (h : step m = (.ok (), m')) :
    runFor (n + 1) m = runFor n m' := by
  rw [runFor, h]

theorem runFor_of_step_error {n : Nat} {m m' : Machine} {f : Fault} (h : step m = (.error f, m')) :
    runFor (n + 1) m = (f, m') := by
  rw [runFor, h]

/-- The state after a run, in which no step is being made. -/
def leave (m : Machine) : Machine :=
  { m with store.journal := m.store.journal.atStep none }

/-- Run until the number of steps is `limit`. Only the end of the program is no fault. -/
def run (limit : Int) : Action Machine Unit := fun m =>
  match runFor (limit - m.steps).toNat m with
  | (.terminated, m) => (.ok (), { m.leave with terminated := true })
  | (f, m) => (.error f, m.leave)

end Machine

end AbstractMachine
