/-
# AbstractMachine.Machine.Operator — operators on the values of a machine

Operators are typed by their operands. Arithmetic and boolean operators only compute; a cast between
pointers and integers also touches the store, which has to know what is exposed.
-/
import AbstractMachine.Machine
import AbstractMachine.Representation.Decode
import AbstractMachine.Representation.Encode

namespace AbstractMachine

/-! ## Operands -/

/-- An operand that has to be an integer at an integer type. -/
def intOperand (v : Value) (ty : Ty) : Except Fault (Int × IntTy) :=
  match v, ty with
  | .int n, .int t => .ok (n, t)
  | v, ty => .error (.defect (.notAnInteger v ty))

/-- An operand that has to be a boolean. -/
def boolOperand : Value → Except Fault Bool
  | .bool b => .ok b
  | v => .error (.defect (.notABoolean v))

/-- The number by which a scalar is compared: booleans as zero and one, pointers by address. -/
def comparable : Value → Except Fault Int
  | .int n => .ok n
  | .bool b => .ok (if b then 1 else 0)
  | .ptr p => .ok p.addr
  | v => .error (.defect (.compareOf v))

/-! ## Results -/

/-- The value that the bytes of another value stand for. -/
def Value.transmute (target : Target) (v : Value) (source ty : Ty) : Except Fault Value := do
  require (source.byteSize target == ty.byteSize target) (.undefined .transmuteSize)
  match ← ty.decode target (← source.encode target v) with
  | some w => return w
  | none => throw (.undefined (.invalidTransmute ty))

/-- The result of comparing two values, and its type. -/
def RelOp.eval (op : RelOp) (left right : Value) : Except Fault (Value × Ty) := do
  let l ← comparable left
  let r ← comparable right
  if op = .cmp then return (.int (signOf l r), .int ⟨true, 1⟩)
  else return (.bool (op.holds l r), .bool)

namespace Machine

/-- The result of an operator on one value, and its type. -/
def evalUnary (op : UnaryOp) (v : Value) (ty : Ty) : Action Machine (Value × Ty) := do
  match op with
  | .neg => do
      let (n, t) ← Action.ofExcept (intOperand v ty)
      return (.int (← Action.ofExcept (t.wrap (-n))), ty)
  | .bitNot => do
      let (n, t) ← Action.ofExcept (intOperand v ty)
      return (.int (← Action.ofExcept (t.wrap (-n - 1))), ty)
  | .not => return (.bool !(← Action.ofExcept (boolOperand v)), .bool)
  | .cast t => do
      let (n, _) ← Action.ofExcept (intOperand v ty)
      return (.int (← Action.ofExcept (t.wrap n)), .int t)
  | .transmute t => return (← Action.ofExcept (v.transmute (← getTarget) ty t), t)
  | .expose =>
      match v with
      | .ptr p => return (.int (← onStore (Store.expose p)), .int (.usize (← getTarget)))
      | v => throw (.defect (.exposeOf v))
  | .fromAddr t => do
      let (n, _) ← Action.ofExcept (intOperand v ty)
      let target ← getTarget
      Action.need (← Action.ofExcept (target.addrInBounds n)) (.undefined (.notAnAddress n))
      let w := Value.ptr (← fromAddr n)
      Action.need (← Action.ofExcept (t.wellFormed target w)) (.undefined (.invalidCast t))
      return (w, t)

/-- The result of an operator on two values, and its type. -/
def evalBinary (op : BinaryOp) (left : Value) (leftTy : Ty) (right : Value) (rightTy : Ty) :
    Action Machine (Value × Ty) := do
  match op with
  | .int op => do
      let (l, t) ← Action.ofExcept (intOperand left leftTy)
      let (r, _) ← Action.ofExcept (intOperand right rightTy)
      return (.int (← Action.ofExcept (op.eval t l r)), .int t)
  | .rel op => Action.ofExcept (op.eval left right)
  | .bool op => do
      let l ← Action.ofExcept (boolOperand left)
      let r ← Action.ofExcept (boolOperand right)
      return (.bool (op.eval l r), .bool)
  | .offset inbounds =>
      match left with
      | .ptr p => do
          let (n, _) ← Action.ofExcept (intOperand right rightTy)
          if inbounds then return (.ptr (← offsetInBounds p n), leftTy)
          else return (.ptr (← Action.ofExcept (p.wrappingOffset n (← getTarget))), leftTy)
      | v => throw (.defect (.offsetOf v))

end Machine

end AbstractMachine
