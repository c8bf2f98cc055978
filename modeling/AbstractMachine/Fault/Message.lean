/-
# AbstractMachine.Fault.Message — what is printed for a fault

One sentence for each cause, and the category by which a run reports it. Undefined behaviour is
announced as such; every other message stands alone.
-/
import AbstractMachine.Fault
import AbstractMachine.Value.Text
import AbstractMachine.Text.Quoted

namespace AbstractMachine

open Text (quoted hex)

/-- The name of an allocation kind, in lower case. -/
def AllocKind.text : AllocKind → String
  | .stack => "stack"
  | .heap => "heap"
  | .function => "function"

/-- The allocation kind of a name. -/
def AllocKind.ofName? (s : String) : Option AllocKind :=
  [stack, heap, function].find? (·.text == s)

/-- The cause, without the announcement that it is undefined behaviour. -/
def Undefined.reason : Undefined → String
  | .allocationSize size => "invalid size for allocation: " ++ toString size
  | .allocationAlign align => "invalid alignment for allocation: " ++ toString align
  | .freeWithoutProvenance => "deallocating invalid pointer"
  | .doubleFree => "double-free"
  | .freeOfKind made used =>
      "deallocating " ++ made.text ++ " memory with " ++ used.text ++ " deallocation operation"
  | .freeNotAtStart => "deallocating with pointer not to the beginning of its allocation"
  | .freeWithSize => "deallocating with incorrect size information"
  | .freeWithAlign => "deallocating with incorrect alignment information"
  | .misaligned => "pointer is insufficiently aligned"
  | .nullAccess => "dereferencing null pointer"
  | .accessWithoutProvenance => "non-zero-sized access with invalid pointer"
  | .deadAccess => "dereferencing pointer to dead allocation"
  | .outOfBounds => "out-of-bounds memory access"
  | .invalidLoad ty =>
      "load at type " ++ ty.text ++ " but the data in memory violates the validity invariant"
  | .invalidStore ty => "storing a value that is not valid at type " ++ ty.text
  | .offsetTooLarge => "inbounds offset does not fit into `isize`"
  | .offsetOverflow => "overflowing inbounds pointer arithmetic"
  | .indexOutOfBounds => "out-of-bounds array access"
  | .invalidDiscriminant => "encountered invalid enum discriminant"
  | .invalidReference => "creating an invalid reference"
  | .transmuteSize => "transmute between types of different size"
  | .invalidTransmute ty => "transmuted value is not valid at type " ++ ty.text
  | .notAnAddress n => "integer " ++ toString n ++ " is not a valid address"
  | .invalidCast ty => "integer-to-pointer cast produced an invalid " ++ ty.text
  | .divisionByZero => "division by zero"
  | .divisionOverflow => "overflow in division"
  | .uncheckedOverflow operation => "overflow in unchecked " ++ operation
  | .unreachable => "reached unreachable code"
  | .notAFunction => "calling a pointer that does not point to a function"
  | .callConvention => "call ABI violation: calling conventions are not the same"
  | .callArity => "call ABI violation: number of arguments does not agree"
  | .callReturnAbi => "call ABI violation: return argument ABI does not agree"
  | .callReturnSize => "call ABI violation: return type size does not agree"
  | .callArgumentAbi => "call ABI violation: argument ABI does not agree"
  | .callArgumentSize => "call ABI violation: argument size does not agree"
  | .returnToNowhere => "return from a function where caller did not specify next block"
  | .intrinsicArguments => "invalid arguments to intrinsic"
  | .intrinsicReturnType => "invalid return type for intrinsic"
  | .intrinsicToNowhere => "return from an intrinsic where caller did not specify next block"
  | .assumedFalse => "`assume` called on false"
  | .reported reason => reason

/-- What is printed for a defect. -/
def Defect.message : Defect → String
  | .byteRange n => "byte value out of range: " ++ toString n
  | .integerRange n size signed =>
      "integer " ++ toString n ++ " does not fit " ++ toString size
        ++ (if signed then " signed bytes" else " unsigned bytes")
  | .noTupleField index => "tuple has no field " ++ toString index
  | .noUnionField index => "union has no field " ++ toString index
  | .noVariant discriminant => "enum has no variant " ++ toString discriminant
  | .illFormed value ty =>
      "encode: " ++ value.text ++ " is not a well-formed value of " ++ ty.text
  | .inadmissibleAddress addr => "address chooser returned inadmissible address " ++ hex addr
  | .notAnAllocation id => "provenance " ++ id.text ++ " does not name an allocation"
  | .neverExposed id => "predicted provenance " ++ id.text ++ " was never exposed"
  | .noStartFunction name => "start function " ++ quoted name ++ " does not exist"
  | .startTakesArguments => "the start function must not take arguments"
  | .noFunction name => "function " ++ quoted name ++ " does not exist"
  | .noLocal function name => function ++ " has no local " ++ quoted name
  | .noBlock function name => function ++ " has no block " ++ quoted name
  | .noCurrentBlock function => function ++ " has no current block"
  | .noFrame => "no active stack frame"
  | .alreadyTerminated => "stepping a terminated machine"
  | .deadLocal name => "use of dead local " ++ quoted name
  | .localAlreadyLive name => "local " ++ quoted name ++ " is already live"
  | .localAlreadyDead name => "local " ++ quoted name ++ " is already dead"
  | .returnLocalDead name function =>
      "return local " ++ quoted name ++ " of " ++ function ++ " is dead"
  | .fieldOf ty => "field projection on " ++ ty.text
  | .indexOf ty => "index projection on " ++ ty.text
  | .indexBy value => "non-integer index " ++ value.text
  | .downcastOf ty => "downcast of non-enum type " ++ ty.text
  | .derefOf value => "dereferencing non-pointer value " ++ value.text
  | .setDiscriminantOf ty => "setting the discriminant of non-enum type " ++ ty.text
  | .discriminantOf ty => "discriminant of non-enum type " ++ ty.text
  | .tupleAt ty => "tuple expression at non-tuple type " ++ ty.text
  | .conditionOn value => "non-boolean condition " ++ value.text
  | .switchOn value => "switch on non-integer " ++ value.text
  | .callOf value => "call of non-pointer value " ++ value.text
  | .notAnInteger value ty =>
      "expected an integer operand, got " ++ value.text ++ " at " ++ ty.text
  | .notABoolean value => "expected a boolean operand, got " ++ value.text
  | .exposeOf value => "pointer-to-integer cast of " ++ value.text
  | .compareOf value => "cannot compare " ++ value.text
  | .offsetOf value => "pointer offset on " ++ value.text
  | .duplicateHandler table node => "duplicate " ++ table ++ " handler for " ++ node
  | .noHandler table node => "no " ++ table ++ " handler for " ++ node
  | .reported reason => reason

/-- What is printed when there was nothing to choose from. -/
def NoChoice.message : NoChoice → String
  | .noAddress size align =>
      "no address for an allocation of size " ++ toString size
        ++ " and alignment " ++ toString align
  | .exhausted => "script exhausted"
  | .reported reason => reason

/-- What is printed for a panic. -/
def Panic.message : Panic → String
  | .explicit => "explicit panic"
  | .reported reason => reason

/-- What is printed for an operation on integers without a result. -/
def Arithmetic.message : Arithmetic → String
  | .divisionByZero => "division by zero"
  | .negativeShift => "negative shift count"
  | .negativeLength => "length argument must be non-negative"
  | .indexOutOfRange => "index out of range"
  | .emptyRange => "empty range"
  | .overflow => "number too large"
  | .noCalendar => "no year of the calendar"
  | .tooManyDigits => "too many digits"

/-- What is printed for a setting that does not say what it should. -/
def SettingError.message : SettingError → String
  | .pointerSize shown => "unsupported pointer size: " ++ shown
  | .endianness => "unknown endianness"
  | .verbosity shown => "unknown verbosity: " ++ shown
  | .strategy shown => "unknown address strategy: " ++ shown
  | .noStrategy => "check_program needs at least one address strategy"
  | .timeLimit => "unusable time limit"
  | .notANumber => "not a number"
  | .wrongType => "wrong type"
  | .noAttribute => "no such attribute"
  | .unknownName => "unknown name"
  | .outcome => "unknown outcome"
  | .outside => "not below the root"

/-- What is printed for a fault. -/
def Fault.message : Fault → String
  | .undefined cause => "undefined behavior: " ++ cause.reason
  | .defect cause => cause.message
  | .noChoice cause => cause.message
  | .panicked cause => cause.message
  | .stepLimit steps => "step limit exceeded after " ++ toString steps ++ " steps"
  | .solverTimeout reason _ => reason
  | .terminated => ""
  | .arithmetic cause => cause.message
  | .setting cause => cause.message

/-- What kind of ending a fault of the machine stands for. -/
inductive FaultCategory where
  | undefinedBehavior
  | panic
  | noValidChoice
  | stepLimit
  | solverTimeout
  | internal
  deriving DecidableEq

/-- The name of a category, in upper case. -/
def FaultCategory.name : FaultCategory → String
  | undefinedBehavior => "UNDEFINED_BEHAVIOR"
  | panic => "PANIC"
  | noValidChoice => "NO_VALID_CHOICE"
  | stepLimit => "STEP_LIMIT"
  | solverTimeout => "SOLVER_TIMEOUT"
  | internal => "INTERNAL"

/-- The category of a fault of the machine. `terminated` is no fault, and what is not the machine's
own has no category. -/
def Fault.category? : Fault → Option FaultCategory
  | .undefined _ => some .undefinedBehavior
  | .defect _ => some .internal
  | .noChoice _ => some .noValidChoice
  | .panicked _ => some .panic
  | .stepLimit _ => some .stepLimit
  | .solverTimeout _ _ => some .solverTimeout
  | .terminated => none
  | .arithmetic _ => none
  | .setting _ => none

end AbstractMachine
