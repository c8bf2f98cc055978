/-
# AbstractMachine.Value — values, and how defined they are

A value is what a program computes with, as opposed to the bytes that stand for it in memory.
Tuples, structs and arrays are all tuples; a union is the bytes of its chunks, verbatim; an enum is
the number of a variant and its payload.

The definedness order on bytes lifts to values: integers and booleans are related only to
themselves, pointers by their provenance, and everything else piece by piece. An absent value is
below every value.
-/
import AbstractMachine.Byte

namespace AbstractMachine

/-- The values of the instruction language. -/
inductive Value where
  | int (n : Int)
  | bool (b : Bool)
  | ptr (p : Pointer)
  | tuple (elems : List Value)
  | union (chunks : List (List AbsByte))
  | variant (discriminant : Int) (payload : Value)

namespace Value

/-- The value without content. -/
def unit : Value := .tuple []

/-! ## Induction -/

section Induction

set_option linter.unusedSectionVars false

variable {motive : Value → Prop} (int : ∀ n, motive (.int n)) (bool : ∀ b, motive (.bool b))
  (ptr : ∀ p, motive (.ptr p))
  (tuple : ∀ vs : List Value, (∀ v ∈ vs, motive v) → motive (.tuple vs))
  (union : ∀ cs, motive (.union cs)) (variant : ∀ d v, motive v → motive (.variant d v))

include int bool ptr tuple union variant

mutual

/-- To show something of all values, show it of each former from its components. -/
theorem induction : ∀ v : Value, motive v
  | .int n => int n
  | .bool b => bool b
  | .ptr p => ptr p
  | .tuple vs => tuple vs (induction_elems vs)
  | .union cs => union cs
  | .variant d v => variant d v (induction v)

theorem induction_elems : ∀ vs : List Value, ∀ v ∈ vs, motive v
  | [], _, h => nomatch h
  | u :: vs, v, h => by
      rcases List.mem_cons.1 h with h | h
      · exact h ▸ induction u
      · exact induction_elems vs v h

end

end Induction

/-! ## The definedness order -/

/-- The definedness order on lists of chunks. -/
def chunksLe : List (List AbsByte) → List (List AbsByte) → Bool
  | [], [] => true
  | c :: cs, d :: ds => AbsByte.leAll c d && chunksLe cs ds
  | _, _ => false

mutual

/-- The left value is at most as defined as the right one. -/
def le : Value → Value → Bool
  | .int a, .int b => a == b
  | .bool a, .bool b => a == b
  | .ptr p, .ptr q => p.addr == q.addr && provenanceLe p.provenance q.provenance
  | .tuple vs, .tuple ws => leElems vs ws
  | .union cs, .union ds => chunksLe cs ds
  | .variant d v, .variant e w => d == e && le v w
  | _, _ => false

def leElems : List Value → List Value → Bool
  | [], [] => true
  | v :: vs, w :: ws => le v w && leElems vs ws
  | _, _ => false

end

/-- `le` on values that may be absent: nothing is below everything. -/
def optionLe : Option Value → Option Value → Bool
  | none, _ => true
  | some _, none => false
  | some v, some w => le v w

theorem length_eq_of_leElems : ∀ {vs ws : List Value}, leElems vs ws = true → vs.length = ws.length
  | [], [], _ => rfl
  | _ :: _, _ :: _, h => by
      simp only [leElems, Bool.and_eq_true] at h
      simp [length_eq_of_leElems h.2]
  | [], _ :: _, h => by simp [leElems] at h
  | _ :: _, [], h => by simp [leElems] at h

theorem chunksLe_refl : ∀ cs : List (List AbsByte), chunksLe cs cs = true
  | [] => rfl
  | c :: cs => by simp [chunksLe, chunksLe_refl cs]

mutual

theorem le_refl : ∀ v : Value, le v v = true
  | .int _ => by simp [le]
  | .bool _ => by simp [le]
  | .ptr _ => by simp [le]
  | .tuple vs => by simp [le, leElems_refl vs]
  | .union cs => by simp [le, chunksLe_refl cs]
  | .variant _ v => by simp [le, le_refl v]

theorem leElems_refl : ∀ vs : List Value, leElems vs vs = true
  | [] => by simp [leElems]
  | v :: vs => by simp [leElems, le_refl v, leElems_refl vs]

end

end Value

end AbstractMachine
