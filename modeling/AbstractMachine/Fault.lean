/-
# AbstractMachine.Fault — the ways an execution can fail

Five of them are answers about a program: it has *undefined behaviour*, it *panicked*, a choice had
*nothing to choose from*, the *step limit* was reached, or the address solver *gave up*. A sixth, a
*defect*, says that the program or the interpreter is wrong in a way that a well-formed program
rules out; it is not an answer and is never turned into one. `terminated` is no failure at all: it
is how the last step ends a run.

The remaining two do not belong to the machine. `arithmetic` is an operation on integers that has
no result, and `setting` a setting that does not say what it should.

Every fault is a cause with its data. What is printed for one is `Fault.message`.
-/
import AbstractMachine.Ty
import AbstractMachine.Value

namespace AbstractMachine

/-- What a program did that has no meaning. -/
inductive Undefined where
  -- allocation and deallocation
  | allocationSize (size : Int)
  | allocationAlign (align : Int)
  | freeWithoutProvenance
  | doubleFree
  | freeOfKind (made used : AllocKind)
  | freeNotAtStart
  | freeWithSize
  | freeWithAlign
  -- access
  | misaligned
  | nullAccess
  | accessWithoutProvenance
  | deadAccess
  | outOfBounds
  | invalidLoad (ty : Ty)
  | invalidStore (ty : Ty)
  -- pointer arithmetic and projections
  | offsetTooLarge
  | offsetOverflow
  | indexOutOfBounds
  -- values
  | invalidDiscriminant
  | invalidReference
  | transmuteSize
  | invalidTransmute (ty : Ty)
  | notAnAddress (n : Int)
  | invalidCast (ty : Ty)
  | divisionByZero
  | divisionOverflow
  | uncheckedOverflow (operation : String)
  -- control flow
  | unreachable
  | notAFunction
  | callConvention
  | callArity
  | callReturnAbi
  | callReturnSize
  | callArgumentAbi
  | callArgumentSize
  | returnToNowhere
  -- intrinsics
  | intrinsicArguments
  | intrinsicReturnType
  | intrinsicToNowhere
  | assumedFalse
  /-- A cause named by somebody else, such as a chooser. -/
  | reported (reason : String)

/-- What a well-formed program and a correct interpreter rule out. -/
inductive Defect where
  -- bytes and values
  | byteRange (n : Int)
  | integerRange (n size : Int) (signed : Bool)
  | noTupleField (index : Int)
  | noUnionField (index : Int)
  | noVariant (discriminant : Int)
  | illFormed (value : Value) (ty : Ty)
  -- choices
  | inadmissibleAddress (addr : Int)
  | notAnAllocation (id : AllocId)
  | neverExposed (id : AllocId)
  -- programs
  | noStartFunction (name : String)
  | startTakesArguments
  | noFunction (name : String)
  | noLocal (function name : String)
  | noBlock (function name : String)
  | noCurrentBlock (function : String)
  | noFrame
  | alreadyTerminated
  | deadLocal (name : String)
  | localAlreadyLive (name : String)
  | localAlreadyDead (name : String)
  | returnLocalDead (name function : String)
  -- types of operands
  | fieldOf (ty : Ty)
  | indexOf (ty : Ty)
  | indexBy (value : Value)
  | downcastOf (ty : Ty)
  | derefOf (value : Value)
  | setDiscriminantOf (ty : Ty)
  | discriminantOf (ty : Ty)
  | tupleAt (ty : Ty)
  | conditionOn (value : Value)
  | switchOn (value : Value)
  | callOf (value : Value)
  | notAnInteger (value : Value) (ty : Ty)
  | notABoolean (value : Value)
  | exposeOf (value : Value)
  | compareOf (value : Value)
  | offsetOf (value : Value)
  -- handler tables; nodes are named by their text
  | duplicateHandler (table node : String)
  | noHandler (table node : String)
  | reported (reason : String)

/-- Why there was nothing to choose from. -/
inductive NoChoice where
  | noAddress (size align : Int)
  | exhausted
  | reported (reason : String)

/-- Why a program panicked. -/
inductive Panic where
  | explicit
  | reported (reason : String)

/-- An operation on integers, or on positions in a list, that has no result. -/
inductive Arithmetic where
  | divisionByZero
  | negativeShift
  | negativeLength
  | indexOutOfRange
  /-- There is no number in a range to draw. -/
  | emptyRange
  /-- A number is larger than what takes it up. -/
  | overflow
  /-- A moment lies in no year of the calendar. -/
  | noCalendar
  /-- A number has more digits than are written. -/
  | tooManyDigits

/-- A setting that does not say what it should. Values are named by their text. -/
inductive SettingError where
  | pointerSize (shown : String)
  | endianness
  | verbosity (shown : String)
  | strategy (shown : String)
  | noStrategy
  /-- The time that a solver may take is no number. -/
  | timeLimit
  | notANumber
  | wrongType
  | noAttribute
  /-- A name that stands for nothing where it is used. -/
  | unknownName
  /-- A name that is none of the outcomes. -/
  | outcome
  /-- A place that does not lie below the root has no path from there. -/
  | outside

/-- How an execution fails, or ends. -/
inductive Fault where
  | undefined (cause : Undefined)
  | defect (cause : Defect)
  | noChoice (cause : NoChoice)
  | panicked (cause : Panic)
  | stepLimit (steps : Int)
  | solverTimeout (reason : String) (timeoutMs : Int)
  | terminated
  | arithmetic (cause : Arithmetic)
  | setting (cause : SettingError)

/-- Fail unless a condition holds. -/
def require (holds : Bool) (fault : Fault) : Except Fault Unit :=
  if holds then .ok () else .error fault

@[simp] theorem require_true (f : Fault) : require true f = .ok () := rfl

@[simp] theorem require_false (f : Fault) : require false f = .error f := rfl

theorem require_eq_ok_iff {c : Bool} {f : Fault} {u : Unit} : require c f = .ok u ↔ c = true := by
  cases c <;> simp [require]

end AbstractMachine
