/-
# AbstractMachine.Machine.Control — jumps, calls, returns and intrinsics

A call begins with the callee's frame beside the stack. Its result local comes alive, the place for
the result is found, and the arguments are evaluated in the caller and stored one by one into fresh
parameters. Only then is the frame pushed. Arguments are stored at the caller's type, so a value
that is not valid there is caught at the call.

A return pops the frame first. The value of the result local is stored into the waiting place, and
the locals are freed. Without a frame left the execution is over.
-/
import AbstractMachine.Machine.Exec
import AbstractMachine.Ty.Equality

namespace AbstractMachine

/-! ## Arguments of intrinsics -/

/-- An argument that has to be an integer. -/
def intArgument : Value × Ty → Except Fault Int
  | (.int n, .int _) => .ok n
  | _ => .error (.undefined .intrinsicArguments)

/-- An argument that has to be a pointer. -/
def ptrArgument : Value × Ty → Except Fault Pointer
  | (.ptr p, .ptr _) => .ok p
  | _ => .error (.undefined .intrinsicArguments)

/-- The line that is printed for an argument. -/
def printed : Value × Ty → Except Fault String
  | (.int n, .int _) => (Text.decimal? n).elim (.error (.arithmetic .tooManyDigits)) .ok
  | (.bool b, .bool) => .ok (if b then "true" else "false")
  | _ => .error (.undefined .intrinsicArguments)

namespace Machine

/-! ## Intrinsics -/

/-- Print arguments, a line each. -/
def printAll (toStderr : Bool) : List (Value × Ty) → Action Machine Unit
  | [] => pure ()
  | a :: rest => do
      print (← Action.ofExcept (printed a)) toStderr
      printAll toStderr rest

/-- Perform an intrinsic on its arguments. -/
def performIntrinsic (op : IntrinsicOp) (arguments : List (Value × Ty)) :
    Action Machine (Value × Ty) := do
  let unit : Value × Ty := (.unit, .unit)
  match op, arguments with
  | .printStdout, args => do
      printAll false args
      return unit
  | .printStderr, args => do
      printAll true args
      return unit
  | .exit, [] => throw .terminated
  | .panic, [] => throw (.panicked .explicit)
  | .allocate, [size, align] => do
      let size ← Action.ofExcept (intArgument size)
      let align ← Action.ofExcept (intArgument align)
      return (.ptr (← onStore (Store.allocate size align .heap)), .ptr .raw)
  | .deallocate, [p, size, align] => do
      let p ← Action.ofExcept (ptrArgument p)
      let size ← Action.ofExcept (intArgument size)
      let align ← Action.ofExcept (intArgument align)
      onStore (Store.deallocate p size align .heap)
      return unit
  | .exposeProvenance, [p] => do
      let p ← Action.ofExcept (ptrArgument p)
      return (.int (← onStore (Store.expose p)), .int (.usize (← getTarget)))
  | .withExposedProvenance, [addr] => do
      let addr ← Action.ofExcept (intArgument addr)
      let inBounds ← Action.ofExcept ((← getTarget).addrInBounds addr)
      Action.need inBounds (.undefined .intrinsicArguments)
      return (.ptr (← fromAddr addr), .ptr .raw)
  | .assume, [(.bool holds, _)] => do
      Action.need holds (.undefined .assumedFalse)
      return unit
  | _, _ => throw (.undefined .intrinsicArguments)

/-- The place for the result of an intrinsic, if one is wanted. -/
def evalResult : Option PlaceExpr → Action Machine (Option (Pointer × PlaceTy))
  | none => return none
  | some place => return some (← evalPlace place)

/-- Store the result of an intrinsic, which has to be of the type of its place. -/
def storeResult (v : Value) (ty : Ty) : Option (Pointer × PlaceTy) → Action Machine Unit
  | none => pure ()
  | some (p, place) => do
      Action.need (place.ty == ty) (.undefined .intrinsicReturnType)
      onStore (Store.typedStore p v place)

/-- Execute an intrinsic, and go on where it says. -/
def execIntrinsic (op : IntrinsicOp) (arguments : List ValueExpr) (result : Option PlaceExpr)
    (next : Option String) : Action Machine Unit := do
  let arguments ← evalAll arguments
  let place ← evalResult result
  let (v, ty) ← performIntrinsic op arguments
  storeResult v ty place
  match next with
  | none => throw (.undefined .intrinsicToNowhere)
  | some block => jump block

/-! ## Calls and returns -/

/-- Evaluate arguments, and store each into its parameter in the callee's frame. -/
def passArguments : List (ValueExpr × ArgAbi) → List (String × ArgAbi) → Frame →
    Action Machine Frame
  | (e, given) :: arguments, (name, expected) :: params, callee => do
      let (v, ty) ← evalValue e
      Action.need (given == expected) (.undefined .callArgumentAbi)
      let place ← Action.ofExcept (callee.localTy name)
      let target ← getTarget
      Action.need (ty.byteSize target == place.byteSize target) (.undefined .callArgumentSize)
      let (p, callee) ← beginLocal callee name
      onStore (Store.typedStore p v { ty, align := place.align })
      passArguments arguments params callee
  | _, _, callee => return callee

/-- The function that a value points to. -/
def calledFunction (m : Machine) : Value → Except Fault String
  | .ptr p =>
      match m.functionAt? p.addr with
      | some name => .ok name
      | none => .error (.undefined .notAFunction)
  | v => .error (.defect (.callOf v))

/-- Call a function. -/
def execCall (callee : ValueExpr) (arguments : List (ValueExpr × ArgAbi)) (result : PlaceExpr)
    (resultAbi : ArgAbi) (next : Option String) (convention : CallingConvention) :
    Action Machine Unit := do
  let (v, _) ← evalValue callee
  let name ← Action.ask fun m => m.calledFunction v
  let f ← newFrame name
  Action.need (f.function.convention == convention) (.undefined .callConvention)
  Action.need (f.function.params.length == arguments.length) (.undefined .callArity)
  let resultPlace ← Action.ofExcept (f.localTy f.function.result)
  let (_, f) ← beginLocal f f.function.result
  let (p, place) ← evalPlace result
  Action.need (resultAbi == f.function.resultAbi) (.undefined .callReturnAbi)
  let target ← getTarget
  Action.need (place.byteSize target == resultPlace.byteSize target) (.undefined .callReturnSize)
  let f ← passArguments arguments f.function.params { f with result := some (p, place) }
  let caller ← frame
  modifyFrame fun c => { c with block := next, index := 0 }
  modify fun m => { m with stack := f :: m.stack }
  note (.called name caller.name)

/-- Remove the innermost frame. -/
def popFrame : Action Machine Frame := do
  match (← get).stack with
  | [] => throw (.arithmetic .indexOutOfRange)
  | f :: rest => do
      modify fun m => { m with stack := rest }
      return f

/-- Hand a result to the place that waits for it, if one does. -/
def deliver (v : Value) (ty : Ty) : Option (Pointer × PlaceTy) → Action Machine Unit
  | none => pure ()
  | some (p, place) => onStore (Store.typedStore p v { ty, align := place.align })

/-- Where a return leads: to the end, or to the caller's next block, which it has to have. -/
def resume : Action Machine Unit := do
  match (← get).stack with
  | [] => throw .terminated
  | caller :: _ => Action.need caller.block.isSome (.undefined .returnToNowhere)

/-- Return from the innermost frame. -/
def execReturn : Action Machine Unit := do
  let f ← popFrame
  match f.locals.find? f.function.result with
  | none => throw (.defect (.returnLocalDead f.function.result f.name))
  | some p => do
      let place ← Action.ofExcept (f.localTy f.function.result)
      let v ← onStore (Store.typedLoad p place)
      deliver v place.ty f.result
      freeLocals f f.locals.entries
      note (.returned f.name)
      resume

/-! ## Terminators -/

/-- The block of the first case that is the value, else the fallback. -/
def selectCase (cases : List (Int × String)) (fallback : String) (n : Int) : String :=
  (cases.lookup n).getD fallback

/-- Execute a terminator. -/
def finish : Terminator → Action Machine Unit
  | .goto block => jump block
  | .ite condition onTrue onFalse => do
      match ← evalValue condition with
      | (.bool b, _) => jump (if b then onTrue else onFalse)
      | (v, _) => throw (.defect (.conditionOn v))
  | .switch value cases fallback => do
      match ← evalValue value with
      | (.int n, _) => jump (selectCase cases fallback n)
      | (v, _) => throw (.defect (.switchOn v))
  | .unreachable => throw (.undefined .unreachable)
  | .call callee arguments result resultAbi next convention =>
      execCall callee arguments result resultAbi next convention
  | .ret => execReturn
  | .intrinsic op arguments result next => execIntrinsic op arguments result next

end Machine

end AbstractMachine
