/-
# AbstractMachine.Ty.Int — the range of an integer type

The range of an integer type follows from its width and signedness. A type of no width has no sign
bit, and one of negative width no range at all; asking for what is not there is a shift by a
negative amount, and fails. From one byte up nothing fails: `min_eq`, `max_eq` and `wrap_eq` give
the values.
-/
import AbstractMachine.Fault

namespace AbstractMachine

/-- The power of two with an exponent that has to be non-negative. -/
def shiftedOne (n : Int) : Except Fault Int :=
  if n < 0 then .error (.arithmetic .negativeShift) else .ok ((1 : Int) <<< n.toNat)

theorem shiftedOne_of_nonneg {n : Int} (h : 0 ≤ n) :
    shiftedOne n = .ok ((1 : Int) <<< n.toNat) := by
  simp [shiftedOne, Int.not_lt.mpr h]

namespace IntTy

/-- Width in bits. -/
def bits (t : IntTy) : Int := t.size * 8

/-- The least integer of the type. -/
def min (t : IntTy) : Except Fault Int :=
  if t.signed then do
    let p ← shiftedOne (t.bits - 1)
    return -p
  else return 0

/-- The greatest integer of the type. -/
def max (t : IntTy) : Except Fault Int := do
  let p ← shiftedOne (if t.signed then t.bits - 1 else t.bits)
  return p - 1

/-- Whether an integer lies in the range of the type. -/
def canRepresent (t : IntTy) (v : Int) : Except Fault Bool := do
  let low ← t.min
  if low ≤ v then
    let high ← t.max
    return v ≤ high
  else return false

/-- The integer of the type that is congruent to `v` modulo two to the width. -/
def wrap (t : IntTy) (v : Int) : Except Fault Int := do
  let modulus ← shiftedOne t.bits
  let rest := v % modulus
  if t.signed then
    let high ← t.max
    return if high < rest then rest - modulus else rest
  else return rest

/-- The least integer of a type that has at least one byte. -/
def low (t : IntTy) : Int :=
  if t.signed then -((1 : Int) <<< (8 * t.size.toNat - 1)) else 0

/-- The greatest integer of a type that has at least one byte. -/
def high (t : IntTy) : Int :=
  (1 : Int) <<< (8 * t.size.toNat - if t.signed then 1 else 0) - 1

theorem bits_toNat {t : IntTy} (h : 1 ≤ t.size) :
    t.bits.toNat = 8 * t.size.toNat ∧ (t.bits - 1).toNat = 8 * t.size.toNat - 1 := by
  simp only [bits]; omega

theorem min_eq {t : IntTy} (h : 1 ≤ t.size) : t.min = .ok t.low := by
  have hb : 0 ≤ t.bits - 1 := by simp only [bits]; omega
  unfold min low
  split
  · simp [shiftedOne_of_nonneg hb, (bits_toNat h).2, bind, Except.bind, pure, Except.pure]
  · rfl

theorem max_eq {t : IntTy} (h : 1 ≤ t.size) : t.max = .ok t.high := by
  have hb : 0 ≤ t.bits - 1 := by simp only [bits]; omega
  have hb' : 0 ≤ t.bits := by omega
  unfold max high
  split <;>
    simp [shiftedOne_of_nonneg hb, shiftedOne_of_nonneg hb', bits_toNat h, bind, Except.bind, pure,
      Except.pure]

theorem canRepresent_eq {t : IntTy} (h : 1 ≤ t.size) (v : Int) :
    t.canRepresent v = .ok (decide (t.low ≤ v ∧ v ≤ t.high)) := by
  simp only [canRepresent, min_eq h, max_eq h, bind, Except.bind, pure, Except.pure]
  by_cases hv : t.low ≤ v <;> simp [hv]

theorem wrap_eq {t : IntTy} (h : 1 ≤ t.size) (v : Int) :
    t.wrap v = .ok (let m := (1 : Int) <<< (8 * t.size.toNat); let r := v % m
      if t.signed ∧ t.high < r then r - m else r) := by
  have hb : 0 ≤ t.bits := by simp only [bits]; omega
  simp only [wrap, max_eq h, shiftedOne_of_nonneg hb, bits_toNat h, bind, Except.bind, pure,
    Except.pure]
  split <;> simp_all

end IntTy

end AbstractMachine
