/-
# AbstractMachine.Proofs.Codec — the codec of integers is inverted by itself

Writing an integer in base 256 and reading the digits back gives the integer modulo the number of
byte strings of that length. An integer that fits is the representative of its residue that reading
picks: the one from zero up without a sign, the one around zero with a sign. So decoding inverts
encoding (`Endian.decode_encode`), and since every byte string spells an integer that fits, encoding
inverts decoding (`Endian.encode_decode`).

The range of an integer type says the same as fitting its bytes (`IntTy.canRepresent_eq_true_iff`).
A signed type without bytes is left out on both sides: it has no sign bit, hence no range.
-/
import AbstractMachine.IntBytes
import AbstractMachine.Ty.Int

namespace AbstractMachine

/-! ## Powers of two -/

theorem one_shiftLeft_natCast (k : Nat) : (1 : Int) <<< k = ((1 <<< k : Nat) : Int) :=
  rfl

theorem one_shiftLeft_pos (k : Nat) : (0 : Int) < (1 : Int) <<< k := by
  rw [Int.shiftLeft_eq, Int.one_mul]
  exact Int.pow_pos (by decide)

/-- The number of strings of `n` bytes is twice the weight of their sign bit. -/
theorem one_shiftLeft_bytes {n : Nat} (h : 1 ≤ n) :
    (1 : Int) <<< (8 * n) = 2 * (1 : Int) <<< (8 * n - 1) := by
  obtain ⟨k, hk⟩ : ∃ k, 8 * n = k + 1 := ⟨8 * n - 1, by omega⟩
  rw [hk, Nat.add_sub_cancel, Int.shiftLeft_eq, Int.shiftLeft_eq, Int.one_mul, Int.one_mul,
    Int.pow_succ, Int.mul_comm]

/-! ## Integers that fit -/

theorem fitsBytes_unsigned {v : Int} {n : Nat} :
    fitsBytes v n false = true ↔ 0 ≤ v ∧ v < (1 : Int) <<< (8 * n) := by
  simp [fitsBytes]

theorem fitsBytes_signed {v : Int} {n : Nat} :
    fitsBytes v n true = true ↔ -(1 : Int) <<< (8 * n - 1) ≤ v ∧ v < (1 : Int) <<< (8 * n - 1) := by
  have pos := one_shiftLeft_pos (8 * n - 1)
  have quotient : v >>> (8 * n - 1) = v / (1 : Int) <<< (8 * n - 1) := by
    rw [Int.shiftRight_eq_div_pow, one_shiftLeft_natCast, Nat.one_shiftLeft]
  simp only [fitsBytes, if_true, quotient, Bool.or_eq_true, beq_iff_eq]
  generalize (1 : Int) <<< (8 * n - 1) = half at pos ⊢
  have split := Int.mul_ediv_add_emod v half
  have low := Int.emod_nonneg v (show half ≠ 0 by omega)
  have high := Int.emod_lt_of_pos v pos
  constructor
  · rintro (zero | minus)
    · rw [zero] at split
      omega
    · rw [minus] at split
      omega
  · rintro ⟨lower, upper⟩
    by_cases sign : 0 ≤ v
    · exact Or.inl (Int.ediv_eq_zero_of_lt sign upper)
    · refine Or.inr ?_
      rw [Int.ediv_eq_iff_of_pos pos]
      omega

namespace IntTy

/-- The range of a type holds the integers that fit its bytes. -/
theorem canRepresent_eq_true_iff {t : IntTy} {v : Int} :
    t.canRepresent v = .ok true ↔
      0 ≤ t.size ∧ (t.signed = true → 1 ≤ t.size) ∧ fitsBytes v t.size.toNat t.signed = true := by
  obtain ⟨signed, size⟩ := t
  cases signed with
  | true =>
      by_cases positive : 1 ≤ size
      · rw [canRepresent_eq (t := ⟨true, size⟩) positive, fitsBytes_signed]
        simp only [low, high, if_true, Except.ok.injEq, decide_eq_true_eq]
        omega
      · have negative : size * 8 - 1 < 0 := by omega
        simp [canRepresent, min, shiftedOne, bits, negative, bind, Except.bind, positive]
  | false =>
      rw [fitsBytes_unsigned]
      by_cases nonneg : 0 ≤ v
      · by_cases width : 0 ≤ size
        · have bits : ¬ size * 8 < 0 := by omega
          have eight : (size * 8).toNat = 8 * size.toNat := by omega
          simp only [canRepresent, min, max, shiftedOne, IntTy.bits, bits, eight, bind, Except.bind,
            pure, Except.pure, nonneg, width, Bool.false_eq_true, if_false, if_true,
            Except.ok.injEq, decide_eq_true_eq, true_and, false_implies]
          omega
        · have bits : size * 8 < 0 := by omega
          simp [canRepresent, min, max, shiftedOne, IntTy.bits, bits, bind, Except.bind,
            pure, Except.pure, nonneg, width]
      · simp [canRepresent, min, bind, Except.bind, pure, Except.pure, nonneg]

end IntTy

/-! ## There and back -/

/-- The low bytes of an integer depend on its residue alone. -/
theorem lowBytes_emod (n : Nat) (v : Int) : lowBytes n (v % (1 : Int) <<< (8 * n)) = lowBytes n v := by
  have spelled := lowBytes_natOfBytes (lowBytes n v)
  rwa [length_lowBytes, natOfBytes_lowBytes] at spelled

namespace Endian

variable {e : Endian} {v size : Int} {signed : Bool} {bs : List UInt8}

theorem length_of_encode (h : e.encode v size signed = .ok bs) : (bs.length : Int) = size := by
  obtain ⟨nonneg, _, rfl⟩ := encode_eq_ok_iff.1 h
  rw [length_arrange, length_lowBytes]
  omega

/-- Decoding inverts encoding. -/
theorem decode_encode (h : e.encode v size signed = .ok bs) (sign : signed = true → 1 ≤ size) :
    e.decode bs signed = v := by
  obtain ⟨nonneg, fits, rfl⟩ := encode_eq_ok_iff.1 h
  obtain ⟨n, rfl⟩ := Int.eq_ofNat_of_zero_le nonneg
  rw [Int.toNat_natCast] at fits ⊢
  have spelled := natOfBytes_lowBytes n v
  simp only [decode, arrange_arrange, length_arrange, length_lowBytes]
  cases signed with
  | false =>
      obtain ⟨low, high⟩ := fitsBytes_unsigned.1 fits
      simpa using spelled.trans (Int.emod_eq_of_lt low high)
  | true =>
      obtain ⟨low, high⟩ := fitsBytes_signed.1 fits
      have twice := one_shiftLeft_bytes (n := n) (by have := sign rfl; omega)
      have whole := one_shiftLeft_natCast (8 * n)
      have half := one_shiftLeft_natCast (8 * n - 1)
      by_cases negative : v < 0
      · have residue : v % (1 : Int) <<< (8 * n) = v + (1 : Int) <<< (8 * n) := by
          rw [← Int.add_emod_right, Int.emod_eq_of_lt (by omega) (by omega)]
        rw [residue] at spelled
        rw [if_pos (by simp only [Bool.true_and, decide_eq_true_eq]; omega)]
        omega
      · rw [Int.emod_eq_of_lt (by omega) (by omega)] at spelled
        rw [if_neg (by simp only [Bool.true_and, decide_eq_true_eq]; omega)]
        exact spelled

/-- Every byte string spells an integer that fits its length. -/
theorem fitsBytes_decode (e : Endian) (bs : List UInt8) (signed : Bool) :
    fitsBytes (e.decode bs signed) bs.length signed = true := by
  have bound := natOfBytes_lt (e.arrange bs)
  rw [length_arrange] at bound
  have whole := one_shiftLeft_natCast (8 * bs.length)
  have half := one_shiftLeft_natCast (8 * bs.length - 1)
  cases signed with
  | false =>
      rw [fitsBytes_unsigned]
      simp only [decode, Bool.false_and, Bool.false_eq_true, if_false]
      omega
  | true =>
      rw [fitsBytes_signed]
      simp only [decode, Bool.true_and, decide_eq_true_eq]
      have pos := one_shiftLeft_pos (8 * bs.length - 1)
      rcases Nat.eq_zero_or_pos bs.length with empty | some
      · rw [empty] at bound ⊢
        have zero : natOfBytes (e.arrange bs) = 0 := by simpa using bound
        rw [zero]
        decide
      · have twice := one_shiftLeft_bytes some
        split <;> omega

/-- Encoding inverts decoding. -/
theorem encode_decode (e : Endian) (bs : List UInt8) (signed : Bool) :
    e.encode (e.decode bs signed) bs.length signed = .ok bs := by
  rw [encode_eq_ok_iff]
  refine ⟨by omega, fitsBytes_decode e bs signed, ?_⟩
  have digits := lowBytes_natOfBytes (e.arrange bs)
  rw [length_arrange] at digits
  rw [Int.toNat_natCast]
  have residue : lowBytes bs.length (e.decode bs signed) = e.arrange bs := by
    simp only [decode]
    split
    · rw [← lowBytes_emod, ← one_shiftLeft_natCast, Int.sub_emod_right, lowBytes_emod, digits]
    · exact digits
  rw [residue, arrange_arrange]

end Endian

end AbstractMachine
