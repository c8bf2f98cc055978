/-
# AbstractMachine.Proofs.Operator — operators stay in the range of their types

Whatever an operator on integers computes, it yields an integer of the type that it is computed at.
Most operators wrap their exact result, which lands in the range for any integer; the unchecked ones
refuse a result outside of it. The remainder does neither. It lies between zero and the left operand,
so it is in range because that operand is, and this is the one operator whose operands matter.

A comparison yields a boolean or a sign, a union that was made from one field has chunks of the right
length, and what is read from the bytes of another value is a value.
-/
import AbstractMachine.Machine.Eval
import AbstractMachine.Proofs.Codec
import AbstractMachine.Proofs.Faults
import AbstractMachine.Proofs.Parts
import AbstractMachine.Proofs.Representation.Reencoding

namespace AbstractMachine

/-! ## Integers -/

namespace IntTy

variable {t : IntTy} {v w : Int}

theorem low_le_zero (t : IntTy) : t.low ≤ 0 := by
  have half := one_shiftLeft_pos (8 * t.size.toNat - 1)
  unfold low
  split <;> omega

theorem zero_le_high (t : IntTy) : 0 ≤ t.high := by
  have top := one_shiftLeft_pos (8 * t.size.toNat - if t.signed then 1 else 0)
  unfold high
  omega

theorem canRepresent_iff (sized : 1 ≤ t.size) :
    t.canRepresent v = .ok true ↔ t.low ≤ v ∧ v ≤ t.high := by
  rw [canRepresent_eq sized, Except.ok.injEq, decide_eq_true_eq]

/-- Wrapping lands in the range of the type. -/
theorem canRepresent_of_wrap (sized : 1 ≤ t.size) (h : t.wrap v = .ok w) :
    t.canRepresent w = .ok true := by
  rw [wrap_eq sized, Except.ok.injEq] at h
  have double := one_shiftLeft_bytes (n := t.size.toNat) (by omega)
  have half := one_shiftLeft_pos (8 * t.size.toNat - 1)
  have nonneg := Int.emod_nonneg v (show (1 : Int) <<< (8 * t.size.toNat) ≠ 0 by omega)
  have below := Int.emod_lt_of_pos v (show 0 < (1 : Int) <<< (8 * t.size.toNat) by omega)
  rw [canRepresent_iff sized, ← h]
  cases signed : t.signed with
  | true =>
      simp only [low, high, signed, if_true, true_and]
      split <;> omega
  | false =>
      simp only [low, high, signed, Bool.false_eq_true, false_and, if_false, Nat.sub_zero]
      omega

/-- What lies between zero and an integer of the type is one, too. -/
theorem canRepresent_of_between (sized : 1 ≤ t.size) (hv : t.canRepresent v = .ok true)
    (between : 0 ≤ w ∧ w ≤ v ∨ v ≤ w ∧ w ≤ 0) : t.canRepresent w = .ok true := by
  have low := t.low_le_zero
  have high := t.zero_le_high
  rw [canRepresent_iff sized] at hv ⊢
  omega

theorem eq_of_quotient {l r q : Int} (h : t.quotient l r = .ok q) :
    q = l.tdiv r ∧ t.canRepresent q = .ok true := by
  simp only [quotient, bind_eq_ok_iff, require_eq_ok_iff, pure, Except.pure, Except.ok.injEq] at h
  obtain ⟨_, -, _, fits, _, rfl, rfl⟩ := h
  exact ⟨rfl, fits⟩

/-- A remainder lies between zero and the dividend. -/
theorem remainder_between (l r : Int) :
    0 ≤ l - r * l.tdiv r ∧ l - r * l.tdiv r ≤ l ∨ l ≤ l - r * l.tdiv r ∧ l - r * l.tdiv r ≤ 0 := by
  rw [← Int.tmod_def]
  have size : (l.tmod r).natAbs ≤ l.natAbs := by
    rw [Int.natAbs_tmod]
    exact Nat.mod_le _ _
  by_cases sign : 0 ≤ l
  · have nonneg := Int.tmod_nonneg r sign
    omega
  · have opposite := Int.tmod_nonneg r (show 0 ≤ -l by omega)
    rw [Int.neg_tmod] at opposite
    omega

theorem canRepresent_of_exactly {operation : String} (h : t.exactly operation v = .ok w) :
    t.canRepresent w = .ok true := by
  simp only [exactly, bind_eq_ok_iff, require_eq_ok_iff, pure, Except.pure, Except.ok.injEq] at h
  obtain ⟨_, fits, _, rfl, rfl⟩ := h
  exact fits

end IntTy

/-- An operator on integers yields an integer of its type. -/
theorem IntBinOp.canRepresent_of_eval {op : IntBinOp} {t : IntTy} {l r w : Int}
    (sized : 1 ≤ t.size) (left : t.canRepresent l = .ok true) (h : op.eval t l r = .ok w) :
    t.canRepresent w = .ok true := by
  cases op with
  | add | sub | mul => exact t.canRepresent_of_wrap sized h
  | div => exact (IntTy.eq_of_quotient h).2
  | rem =>
      obtain ⟨q, hq, h⟩ := bind_eq_ok_iff.1 h
      obtain ⟨rfl, -⟩ := IntTy.eq_of_quotient hq
      obtain rfl := Except.ok.inj h
      exact t.canRepresent_of_between sized left (IntTy.remainder_between l r)
  | shl | shr | shlUnchecked | shrUnchecked =>
      obtain ⟨amount, -, h⟩ := bind_eq_ok_iff.1 h
      exact t.canRepresent_of_wrap sized h
  | bitAnd | bitOr | bitXor =>
      obtain ⟨modulus, -, h⟩ := bind_eq_ok_iff.1 h
      exact t.canRepresent_of_wrap sized h
  | addUnchecked | subUnchecked | mulUnchecked => exact IntTy.canRepresent_of_exactly h

/-! ## Other operators -/

theorem intOperand_eq_ok {v : Value} {ty : Ty} {n : Int} {t : IntTy}
    (h : intOperand v ty = .ok (n, t)) : v = .int n ∧ ty = .int t := by
  unfold intOperand at h
  split at h
  · obtain ⟨rfl, rfl⟩ := Prod.mk.inj (Except.ok.inj h)
    exact ⟨rfl, rfl⟩
  · cases h

variable {target : Target} {v w : Value} {ty source : Ty}

/-- A comparison yields a value of the type that it says. -/
theorem RelOp.wellFormed_of_eval {op : RelOp} {l r : Value} (h : op.eval l r = .ok (v, ty)) :
    ty.All (Ty.Regular target) ∧ ty.wellFormed target v = .ok true := by
  obtain ⟨x, -, h⟩ := bind_eq_ok_iff.1 h
  obtain ⟨y, -, h⟩ := bind_eq_ok_iff.1 h
  split at h
  · obtain ⟨rfl, rfl⟩ := Prod.mk.inj (Except.ok.inj h)
    refine ⟨Ty.all_regular_int (by decide), ?_⟩
    simp only [signOf]
    split
    · rfl
    · split <;> rfl
  · obtain ⟨rfl, rfl⟩ := Prod.mk.inj (Except.ok.inj h)
    exact ⟨Ty.all_regular_bool, rfl⟩

/-- What the bytes of a value stand for at a regular type is a value of that type. -/
theorem Ty.wellFormed_of_decode_of_regular {data : List AbsByte} (regular : ty.All (Regular target))
    (h : ty.decode target data = .ok (some v)) : ty.wellFormed target v = .ok true :=
  wellFormed_of_decode (regular.every.imp fun _ r => r.int_sized)
    (regular.every.imp fun _ r => r.counted)
    (regular.every.imp fun _ r => ⟨r.chunks_sized, r.chunks_inside⟩) h

theorem Value.wellFormed_of_transmute (regular : ty.All (Ty.Regular target))
    (h : v.transmute target source ty = .ok w) : ty.wellFormed target w = .ok true := by
  simp only [transmute, bind_eq_ok_iff] at h
  obtain ⟨_, -, data, -, o, decoded, h⟩ := h
  cases o with
  | none => cases h
  | some u =>
      obtain rfl := Except.ok.inj h
      exact Ty.wellFormed_of_decode_of_regular regular decoded

namespace Slice

/-- Laying elements over a buffer does not make it shorter, wherever they go. -/
theorem length_le_length_overlay {α : Type} (xs new : List α) (start : Int) :
    xs.length ≤ (overlay xs start new).length := by
  simp only [overlay, write, position, List.length_append, List.length_take, List.length_drop]
  split <;> split <;> omega

end Slice

theorem Chunk.Inside.mono {c : Chunk} {size larger : Int} (h : c.Inside size)
    (le : size ≤ larger) : c.Inside larger :=
  fun i hi => ⟨(h i hi).1, Int.lt_of_lt_of_le (h i hi).2 le⟩

/-- A union that was made from one field is a value of its type, wherever the field lies. -/
theorem UnionTy.wellFormed_of_ofField {u : UnionTy} {i : Int} (regular : (Ty.union u).Regular target)
    (h : u.ofField target i v = .ok w) : (Ty.union u).wellFormed target w = .ok true := by
  simp only [ofField, bind_eq_ok_iff] at h
  obtain ⟨f, -, data, -, h⟩ := h
  obtain rfl := Except.ok.inj h
  refine Ty.wellFormed_union_iff.2 ⟨_, rfl, ?_⟩
  rw [List.forall₂_map_right_iff, List.forall₂_same]
  intro c hc
  refine Slice.length_read _ (regular.chunks_sized c hc) ((regular.chunks_inside c hc).mono ?_)
  have longer := Slice.length_le_length_overlay (AbsByte.blank u.size) data f.offset
  rw [AbsByte.length_blank] at longer
  omega

end AbstractMachine
