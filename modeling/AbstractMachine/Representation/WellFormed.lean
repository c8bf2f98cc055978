/-
# AbstractMachine.Representation.WellFormed — which values are values of a type

A well-formed value of a type is one that the type can store: the shape fits, integers lie in range,
and safe pointers are non-null, aligned and point to something inhabited. What the pointer points to
is not looked at.

Components are tried from left to right, and a component that is not well-formed ends the search.
The test fails only where arithmetic does: for integer types without a range, pointers without a
width, and an alignment of zero.
-/
import AbstractMachine.Address

namespace AbstractMachine

/-- Whether an address is a multiple of an alignment. -/
def isAligned (addr align : Int) : Except Fault Bool :=
  if align = 0 then .error (.arithmetic .divisionByZero) else .ok (addr % align == 0)

theorem isAligned_of_ne_zero {addr align : Int} (h : align ≠ 0) :
    isAligned addr align = .ok (addr % align == 0) := by
  simp [isAligned, h]

/-- Whether a safe pointer to `p` may have this address. -/
def Pointee.validAddr (p : Pointee) (addr : Int) : Except Fault Bool :=
  if p.inhabited && addr != 0 then isAligned addr p.align else .ok false

/-- Whether a pointer of this type may have this address. -/
def PtrTy.validAddr (t : PtrTy) (addr : Int) : Except Fault Bool :=
  match t.safePointee with
  | none => .ok true
  | some p => p.validAddr addr

/-- Whether a test holds of each element, tried from left to right up to the first that fails. -/
def allOk {α : Type} (test : α → Except Fault Bool) : List α → Except Fault Bool
  | [] => .ok true
  | x :: xs =>
      match test x with
      | .error f => .error f
      | .ok false => .ok false
      | .ok true => allOk test xs

/-- Whether a union's chunks have the lengths that its type says. -/
def chunksFit : List Chunk → List (List AbsByte) → Bool
  | [], [] => true
  | c :: cs, bs :: bss => (bs.length : Int) == c.size && chunksFit cs bss
  | _, _ => false

mutual

/-- Whether a value is well-formed at a type. -/
def Ty.wellFormed (target : Target) : Ty → Value → Except Fault Bool
  | .bool, .bool _ => .ok true
  | .int t, .int n => t.canRepresent n
  | .ptr t, .ptr p => do if ← target.addrInBounds p.addr then t.validAddr p.addr else return false
  | .tuple fields _, .tuple vs =>
      if vs.length = fields.length then fieldsWellFormed target fields vs else .ok false
  | .array elem count, .tuple vs =>
      if (vs.length : Int) = count then allOk (elem.wellFormed target) vs else .ok false
  | .union u, .union chunks => .ok (chunksFit u.chunks chunks)
  | .enum ⟨variants, _, _, _⟩, .variant d payload => variantWellFormed target variants d payload
  | _, _ => .ok false

/-- Whether values are well-formed at the types of fields, one each. -/
def fieldsWellFormed (target : Target) : List Field → List Value → Except Fault Bool
  | [], [] => .ok true
  | ⟨_, ty⟩ :: fields, v :: vs =>
      match ty.wellFormed target v with
      | .error f => .error f
      | .ok false => .ok false
      | .ok true => fieldsWellFormed target fields vs
  | _, _ => .ok false

/-- Whether a payload is well-formed at the variant with this number. -/
def variantWellFormed (target : Target) : List Variant → Int → Value → Except Fault Bool
  | [], _, _ => .ok false
  | ⟨ty, _⟩ :: variants, d, payload =>
      if d = 0 then ty.wellFormed target payload
      else variantWellFormed target variants (d - 1) payload

end

end AbstractMachine
