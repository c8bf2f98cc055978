/-
# AbstractMachine.Memory.Typed — values in memory

A typed load reads bytes and insists that they stand for a value; a typed store insists that the
value is well-formed and writes its canonical bytes. Retagging a value retags every safe pointer in
it, through tuples, arrays and the active variant of an enum, but not inside unions, whose bytes
have no type.
-/
import AbstractMachine.Memory
import AbstractMachine.Representation.Decode
import AbstractMachine.Representation.Encode

namespace AbstractMachine

namespace Memory

/-- The value at a pointer. -/
def typedLoad (m : Memory) (p : Pointer) (place : PlaceTy) : Except Fault Value := do
  let data ← m.load p (place.byteSize m.target) place.align
  match ← place.ty.decode m.target data with
  | some v => return v
  | none => throw (.undefined (.invalidLoad place.ty))

/-- Put a value at a pointer. -/
def typedStore (m : Memory) (p : Pointer) (v : Value) (place : PlaceTy) : Except Fault Memory := do
  require (← place.ty.wellFormed m.target v) (.undefined (.invalidStore place.ty))
  m.store p (← place.ty.encode m.target v) place.align

/-- Make the bytes of a place uninitialised. -/
def deinit (m : Memory) (p : Pointer) (place : PlaceTy) : Except Fault Memory :=
  m.store p (AbsByte.blank (place.byteSize m.target)) place.align

mutual

/-- Retag every safe pointer in a value. -/
def retagValue (m : Memory) : Ty → Value → Except Fault Value
  | .ptr t, .ptr p => do return .ptr (← m.retag p t)
  | .tuple fields _, .tuple vs => do return .tuple (← retagFields m fields vs)
  | .array elem _, .tuple vs => do return .tuple (← retagAll (retagValue m elem) vs)
  | .enum ⟨variants, _, _, _⟩, .variant d v => do
      return .variant d (← retagVariant m d variants d v)
  | _, v => .ok v

/-- Retag the values of fields, as many as there are of both. -/
def retagFields (m : Memory) : List Field → List Value → Except Fault (List Value)
  | ⟨_, ty⟩ :: fields, v :: vs => do
      let v ← retagValue m ty v
      return v :: (← retagFields m fields vs)
  | _, _ => .ok []

/-- Retag the payload of the variant `index` places down the list, which is the variant `d` of its
enum. -/
def retagVariant (m : Memory) (d : Int) : List Variant → Int → Value → Except Fault Value
  | [], _, _ => .error (.defect (.noVariant d))
  | ⟨ty, _⟩ :: variants, index, v =>
      if index = 0 then retagValue m ty v else retagVariant m d variants (index - 1) v

/-- Retag each value of a list. -/
def retagAll (retag : Value → Except Fault Value) : List Value → Except Fault (List Value)
  | [] => .ok []
  | v :: vs => do
      let v ← retag v
      return v :: (← retagAll retag vs)

end

end Memory

end AbstractMachine
