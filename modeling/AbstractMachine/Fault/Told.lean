/-
# AbstractMachine.Fault.Told — faults whose message can be written

A message writes its numbers in decimal, and a number may have too many digits for that. Programs
come by such numbers through arithmetic at a wide type. A fault that has to name one cannot be
told, and a number with too many digits is what is told in its place (`told_eq_self` for all
others).

Numbers inside a type are not looked at. Messages do write types, with their offsets, sizes and
tags, so this is an idealisation: a message that has to write a type with too long a number in it is
told here all the same. No run computes such a number. It is in the type because it was written
there, or because a layout with such sizes was built.
-/
import AbstractMachine.Fault
import AbstractMachine.Text.Number

namespace AbstractMachine

mutual

/-- The integers in a value. -/
def Value.numbers : Value → List Int
  | .int n => [n]
  | .bool _ => []
  | .ptr _ => []
  | .tuple elems => elemNumbers elems
  | .union _ => []
  | .variant d payload => d :: payload.numbers

def elemNumbers : List Value → List Int
  | [] => []
  | v :: vs => v.numbers ++ elemNumbers vs

end

/-- The numbers that are written for a cause of undefined behaviour. -/
def Undefined.numbers : Undefined → List Int
  | .allocationSize size => [size]
  | .allocationAlign align => [align]
  | .notAnAddress n => [n]
  | _ => []

/-- The numbers that are written for a defect. -/
def Defect.numbers : Defect → List Int
  | .byteRange n => [n]
  | .integerRange n size _ => [n, size]
  | .noTupleField index => [index]
  | .noUnionField index => [index]
  | .noVariant discriminant => [discriminant]
  | .illFormed value _ => value.numbers
  | .indexBy value => value.numbers
  | .derefOf value => value.numbers
  | .conditionOn value => value.numbers
  | .switchOn value => value.numbers
  | .callOf value => value.numbers
  | .notAnInteger value _ => value.numbers
  | .notABoolean value => value.numbers
  | .exposeOf value => value.numbers
  | .compareOf value => value.numbers
  | .offsetOf value => value.numbers
  | _ => []

/-- The numbers that are written when there was nothing to choose from. -/
def NoChoice.numbers : NoChoice → List Int
  | .noAddress size align => [size, align]
  | _ => []

namespace Fault

/-- The numbers that the message of a fault writes. Those in the text of a type are written too, and
are not among them. -/
def numbers : Fault → List Int
  | .undefined cause => cause.numbers
  | .defect cause => cause.numbers
  | .noChoice cause => cause.numbers
  | .stepLimit steps => [steps]
  | _ => []

/-- The fault that is told for a fault: that one, if its message can be written. -/
def told (f : Fault) : Fault :=
  if f.numbers.all Text.isShort then f else .arithmetic .tooManyDigits

theorem told_eq_self {f : Fault} (short : ∀ n ∈ f.numbers, Text.isShort n) : f.told = f := by
  rw [told, if_pos (List.all_eq_true.mpr short)]

/-- What is told can be told. -/
theorem told_told (f : Fault) : f.told.told = f.told := by
  by_cases h : f.numbers.all Text.isShort
  · have same : f.told = f := if_pos h
    rw [same, same]
  · have other : f.told = .arithmetic .tooManyDigits := if_neg h
    rw [other]
    rfl

end Fault

end AbstractMachine
