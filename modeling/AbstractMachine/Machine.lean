/-
# AbstractMachine.Machine — the state of an execution

A machine is a store, a stack of frames and what was printed. A frame is one activation of a
function: the locals that are live, as pointers into the store, and the place in the code to go on
from. While a call runs, the frame below stands at the block where it will go on, or at none if the
call named none.

Every function has one byte of memory to its name. It is never freed, so functions are told apart by
address for as long as the machine runs.
-/
import AbstractMachine.Program
import AbstractMachine.Store

namespace AbstractMachine

/-- One activation of a function. -/
structure Frame where
  name : String
  function : Function
  /-- The locals that are live, in the order in which they came alive. -/
  locals : Table String Pointer := {}
  /-- The place in the caller that is waiting for the result. -/
  result : Option (Pointer × PlaceTy) := none
  block : Option String
  /-- The number of statements of the block that are done. -/
  index : Nat := 0

/-- The state of an execution. -/
structure Machine where
  program : Program
  store : Store
  /-- The addresses of functions. -/
  functions : Table String Int := {}
  /-- The frames, the innermost one first. -/
  stack : List Frame := []
  stdout : List String := []
  stderr : List String := []
  steps : Nat := 0
  terminated : Bool := false

namespace Frame

/-- The declared place type of a local. -/
def localTy (f : Frame) (name : String) : Except Fault PlaceTy :=
  match f.function.locals.find? name with
  | some place => .ok place
  | none => .error (.defect (.noLocal f.name name))

/-- A frame: `StackFrame(main, bb0[1])`. -/
def text (f : Frame) : String :=
  "StackFrame(" ++ f.name ++ ", " ++ f.block.getD "None" ++ "[" ++ toString f.index ++ "])"

end Frame

namespace Machine

/-- The target that the program runs on. -/
def target (m : Machine) : Target := m.store.memory.target

/-- The function at an address. -/
def functionAt? (m : Machine) (addr : Int) : Option String :=
  (m.functions.entries.find? (·.2 == addr)).map (·.1)

/-! ## Parts of the state -/

/-- An action on the store. -/
def onStore {α : Type} (act : Action Store α) : Action Machine α :=
  Action.zoom Machine.store (fun s m => { m with store := s }) act

/-- The target, as an action. -/
def getTarget : Action Machine Target := do
  return (← get).target

/-- The innermost frame. -/
def frame : Action Machine Frame := do
  match (← get).stack with
  | f :: _ => return f
  | [] => throw (.defect .noFrame)

/-- Change the innermost frame. -/
def modifyFrame (change : Frame → Frame) : Action Machine Unit :=
  modify fun m => { m with stack := m.stack.modifyHead change }

/-- The function of a name. -/
def findFunction (name : String) : Action Machine Function := do
  match (← get).program.functions.find? name with
  | some f => return f
  | none => throw (.defect (.noFunction name))

/-- The frame with which a function begins. -/
def newFrame (name : String) : Action Machine Frame := do
  let function ← findFunction name
  return { name, function, block := some function.start }

/-- Print a line. -/
def print (line : String) (toStderr : Bool) : Action Machine Unit :=
  modify fun m =>
    if toStderr then { m with stderr := m.stderr ++ [line] }
    else { m with stdout := m.stdout ++ [line] }

/-- Note an event. -/
def note (e : Event) : Action Machine Unit := onStore (Store.note e)

/-! ## Locals -/

/-- Begin the life of a local in a frame: it gets fresh memory. -/
def beginLocal (f : Frame) (name : String) : Action Machine (Pointer × Frame) := do
  Action.need (!f.locals.contains name) (.defect (.localAlreadyLive name))
  let place ← Action.ofExcept (f.localTy name)
  let p ← onStore (Store.allocate (place.byteSize (← getTarget)) place.align .stack)
  return (p, { f with locals := f.locals.insert name p })

/-- Free the memory of a local of a frame. -/
def freeLocal (f : Frame) (name : String) (p : Pointer) : Action Machine Unit := do
  let place ← Action.ofExcept (f.localTy name)
  onStore (Store.deallocate p (place.byteSize (← getTarget)) place.align .stack)

/-- Begin the life of a local in the innermost frame. -/
def storageLive (name : String) : Action Machine Unit := do
  let (_, f) ← beginLocal (← frame) name
  modifyFrame fun _ => f

/-- End the life of a local in the innermost frame. -/
def storageDead (name : String) : Action Machine Unit := do
  let f ← frame
  match f.locals.find? name with
  | none => throw (.defect (.localAlreadyDead name))
  | some p => do
      modifyFrame fun f => { f with locals := f.locals.erase name }
      freeLocal f name p

/-- Free the memory of locals of a frame. -/
def freeLocals (f : Frame) : List (String × Pointer) → Action Machine Unit
  | [] => pure ()
  | (name, p) :: rest => do
      freeLocal f name p
      freeLocals f rest

/-- The place of a local of the innermost frame. -/
def localPlace (name : String) : Action Machine (Pointer × PlaceTy) := do
  let f ← frame
  match f.locals.find? name with
  | none => throw (.defect (.deadLocal name))
  | some p => return (p, ← Action.ofExcept (f.localTy name))

/-! ## Control -/

/-- Go on at the start of a block. -/
def jump (block : String) : Action Machine Unit := do
  let f ← frame
  Action.need (f.function.blocks.contains block) (.defect (.noBlock f.name block))
  modifyFrame fun f => { f with block := some block, index := 0 }

/-! ## Pointers -/

/-- Move a pointer inside its allocation. -/
def offsetInBounds (p : Pointer) (offset : Int) : Action Machine Pointer :=
  onStore (Store.ask fun m => m.offsetInBounds p offset)

/-- The pointer that an address stands for. -/
def fromAddr (addr : Int) : Action Machine Pointer :=
  onStore (Store.fromExposed addr)

/-! ## Text -/

/-- A machine: `Machine(1 frames, 3 steps, BasicMemory(2 live of 2))`. -/
def text (m : Machine) : String :=
  "Machine(" ++ Text.commaSeparated [toString m.stack.length ++ " frames",
    toString m.steps ++ " steps", m.store.memory.text] ++ ")"

end Machine

end AbstractMachine
