/-
# AbstractMachine.Operator — operators, and integer arithmetic

Plain integer arithmetic wraps into the width of the result. Division rounds toward zero and is
undefined where the quotient does not fit; the unchecked operators are undefined wherever the exact
result does not fit. A plain shift takes its amount modulo the width, an unchecked one is undefined
outside it. Shifting right rounds down, so it keeps the sign.

Bitwise operators act on the residues modulo two to the width: only those bits are left in the
result, and they do not depend on the others.
-/
import AbstractMachine.Ty.Int

namespace AbstractMachine

/-- Operators on two integers. -/
inductive IntBinOp where
  | add
  | sub
  | mul
  | div
  | rem
  | shl
  | shr
  | bitAnd
  | bitOr
  | bitXor
  | addUnchecked
  | subUnchecked
  | mulUnchecked
  | shlUnchecked
  | shrUnchecked
  deriving DecidableEq

/-- Comparisons. `cmp` yields minus one, zero or one. -/
inductive RelOp where
  | lt
  | le
  | gt
  | ge
  | eq
  | ne
  | cmp
  deriving DecidableEq

/-- Operators on two booleans. -/
inductive BoolBinOp where
  | and
  | or
  | xor
  deriving DecidableEq

/-- Operators on one value. -/
inductive UnaryOp where
  | neg
  | bitNot
  | not
  /-- The integer of another type with the same residue. -/
  | cast (ty : IntTy)
  /-- The value that the bytes of the operand stand for at another type. -/
  | transmute (ty : Ty)
  /-- The address of a pointer, whose provenance is exposed by this. -/
  | expose
  /-- A pointer with an exposed provenance, or none. -/
  | fromAddr (ty : Ty)

/-- Operators on two values. -/
inductive BinaryOp where
  | int (op : IntBinOp)
  | rel (op : RelOp)
  | bool (op : BoolBinOp)
  /-- A pointer moved by a number of bytes, inside its allocation if `inbounds`. -/
  | offset (inbounds : Bool)

/-! ## Names -/

namespace IntBinOp

/-- The operators on two integers. -/
def all : List IntBinOp :=
  [add, sub, mul, div, rem, shl, shr, bitAnd, bitOr, bitXor, addUnchecked, subUnchecked,
   mulUnchecked, shlUnchecked, shrUnchecked]

/-- The name of an operator on two integers. -/
def name : IntBinOp → String
  | add => "add"
  | sub => "sub"
  | mul => "mul"
  | div => "div"
  | rem => "rem"
  | shl => "shl"
  | shr => "shr"
  | bitAnd => "bit_and"
  | bitOr => "bit_or"
  | bitXor => "bit_xor"
  | addUnchecked => "add_unchecked"
  | subUnchecked => "sub_unchecked"
  | mulUnchecked => "mul_unchecked"
  | shlUnchecked => "shl_unchecked"
  | shrUnchecked => "shr_unchecked"

end IntBinOp

namespace RelOp

/-- The comparisons. -/
def all : List RelOp := [lt, le, gt, ge, eq, ne, cmp]

/-- The name of a comparison. -/
def name : RelOp → String
  | lt => "lt"
  | le => "le"
  | gt => "gt"
  | ge => "ge"
  | eq => "eq"
  | ne => "ne"
  | cmp => "cmp"

end RelOp

namespace BoolBinOp

/-- The operators on two booleans. -/
def all : List BoolBinOp := [and, or, xor]

/-- The name of an operator on two booleans. -/
def name : BoolBinOp → String
  | and => "and"
  | or => "or"
  | xor => "xor"

end BoolBinOp

/-- The operators on one value that are known by a name alone. -/
def UnaryOp.ofName? (s : String) : Option UnaryOp :=
  [("neg", neg), ("bit_not", bitNot), ("not", not), ("ptr2int", expose)].lookup s

/-- The operator on two integers of a name. -/
def IntBinOp.ofName? (s : String) : Option IntBinOp :=
  all.find? (·.name == s)

/-- The operators on two values that are known by a name alone. -/
def BinaryOp.ofName? (s : String) : Option BinaryOp :=
  ((IntBinOp.ofName? s).map .int).or
    (((RelOp.all.find? (·.name == s)).map .rel).or
      ((BoolBinOp.all.find? (·.name == s)).map .bool))

/-! ## Integer arithmetic -/

/-- The amount of a plain shift: the operand modulo the width. -/
def IntTy.shiftAmount (t : IntTy) (n : Int) : Except Fault Nat :=
  if t.bits = 0 then .error (.arithmetic .divisionByZero)
  else if n.fmod t.bits < 0 then .error (.arithmetic .negativeShift)
  else .ok (n.fmod t.bits).toNat

/-- An integer shifted left, wrapped into the type. -/
def IntTy.shiftLeft (t : IntTy) (v : Int) (amount : Nat) : Except Fault Int :=
  t.wrap (v <<< amount)

/-- An integer shifted right, wrapped into the type. -/
def IntTy.shiftRight (t : IntTy) (v : Int) (amount : Nat) : Except Fault Int :=
  t.wrap (v >>> amount)

/-- A bitwise operation on residues, wrapped into the type. -/
def IntTy.bitwise (t : IntTy) (op : Nat → Nat → Nat) (left right : Int) : Except Fault Int := do
  let modulus ← shiftedOne t.bits
  t.wrap (op (left % modulus).toNat (right % modulus).toNat : Nat)

/-- The quotient rounded toward zero, where there is one and it fits. -/
def IntTy.quotient (t : IntTy) (left right : Int) : Except Fault Int := do
  require (right != 0) (.undefined .divisionByZero)
  let q := left.tdiv right
  require (← t.canRepresent q) (.undefined .divisionOverflow)
  return q

/-- The exact result of an unchecked operation, if it fits. -/
def IntTy.exactly (t : IntTy) (operation : String) (v : Int) : Except Fault Int := do
  require (← t.canRepresent v) (.undefined (.uncheckedOverflow operation))
  return v

/-- The amount of an unchecked shift, if it is less than the width. -/
def IntTy.uncheckedAmount (t : IntTy) (operation : String) (n : Int) : Except Fault Nat := do
  require (0 ≤ n && n < t.bits) (.undefined (.uncheckedOverflow operation))
  return n.toNat

/-- The result of an operator at an integer type. -/
def IntBinOp.eval (op : IntBinOp) (t : IntTy) (left right : Int) : Except Fault Int :=
  match op with
  | .add => t.wrap (left + right)
  | .sub => t.wrap (left - right)
  | .mul => t.wrap (left * right)
  | .div => t.quotient left right
  | .rem => do return left - right * (← t.quotient left right)
  | .shl => do t.shiftLeft left (← t.shiftAmount right)
  | .shr => do t.shiftRight left (← t.shiftAmount right)
  | .bitAnd => t.bitwise (· &&& ·) left right
  | .bitOr => t.bitwise (· ||| ·) left right
  | .bitXor => t.bitwise (· ^^^ ·) left right
  | .addUnchecked => t.exactly "add" (left + right)
  | .subUnchecked => t.exactly "sub" (left - right)
  | .mulUnchecked => t.exactly "mul" (left * right)
  | .shlUnchecked => do t.shiftLeft left (← t.uncheckedAmount "shl" right)
  | .shrUnchecked => do t.shiftRight left (← t.uncheckedAmount "shr" right)

/-- The truth of a comparison other than `cmp`, which yields no truth. -/
def RelOp.holds (op : RelOp) (left right : Int) : Bool :=
  match op with
  | .lt => left < right
  | .le => left ≤ right
  | .gt => right < left
  | .ge => right ≤ left
  | .eq => left == right
  | .ne => left != right
  | .cmp => false

/-- Minus one, zero or one, as the left number is less, equal or greater. -/
def signOf (left right : Int) : Int :=
  if left < right then -1 else if right < left then 1 else 0

/-- The truth of a boolean operator. -/
def BoolBinOp.eval (op : BoolBinOp) (left right : Bool) : Bool :=
  match op with
  | .and => left && right
  | .or => left || right
  | .xor => left != right

end AbstractMachine
