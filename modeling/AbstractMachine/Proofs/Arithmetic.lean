/-
# AbstractMachine.Proofs.Arithmetic — integer operators against exact arithmetic

What every operator on integers computes, said in exact arithmetic on unbounded integers. The
wrapping operators yield the integer of the type in the residue class of the exact result, of which
there is one. A shift takes its amount modulo the width, so it is never negative, and shifting right
rounds down. The bitwise operators act on all the positions of the two's complement forms, those
above the width included: an integer of the type repeats its sign bit there, and so does the result.

Division is undefined where there is no quotient or it does not fit, and is division with rest
otherwise. The unchecked operators are undefined where the exact result does not fit, or the amount
of a shift is none, and agree with the wrapping ones everywhere else.

The left operand is an integer of the type throughout, which a remainder and a shift to the right
need. The right one may come from any type; only the bitwise operators need it in range.
-/
import AbstractMachine.Proofs.Operator
import Mathlib.Data.Int.Bitwise
import Mathlib.Data.Int.ModEq

namespace AbstractMachine

/-- There is no result, since the operation is undefined there. -/
def IsUndefined {α : Type} (o : Except Fault α) : Prop :=
  ∃ u, o = .error (.undefined u)

theorem not_isUndefined_ok {α : Type} (a : α) : ¬ IsUndefined (.ok a) := by
  rintro ⟨_, h⟩
  cases h

theorem isUndefined_iff {α : Type} {o : Except Fault α} {refused : Prop}
    (yes : refused → IsUndefined o) (no : ¬ refused → ∃ a, o = .ok a) : IsUndefined o ↔ refused := by
  refine ⟨fun h => ?_, yes⟩
  by_contra answered
  obtain ⟨a, ha⟩ := no answered
  rw [ha] at h
  exact not_isUndefined_ok a h

/-! ## Bits of unbounded integers -/

section

variable {v : Int} {n i : Nat}

theorem two_pow_natCast (n : Nat) : (2 : Int) ^ n = ((2 ^ n : Nat) : Int) := by
  push_cast
  rfl

/-- The rest modulo a power of two keeps the positions below the exponent. -/
theorem testBit_toNat_emod (v : Int) (n i : Nat) :
    (v % 2 ^ n).toNat.testBit i = (decide (i < n) && v.testBit i) := by
  have positive := Nat.two_pow_pos n
  rw [two_pow_natCast]
  cases v with
  | ofNat m =>
      show (m % 2 ^ n).testBit i = _
      rw [Nat.testBit_mod_two_pow]
      rfl
  | negSucc m =>
      -- the rest of a negative number is counted down from the power
      have rest : (Int.negSucc m % ((2 ^ n : Nat) : Int)).toNat = 2 ^ n - (m % 2 ^ n + 1) := by
        rw [Int.negSucc_emod m (by omega), ← Int.natCast_mod]
        omega
      rw [rest, Nat.testBit_two_pow_sub_succ (Nat.mod_lt m positive), Nat.testBit_mod_two_pow]
      by_cases below : i < n <;> simp [below, Int.testBit]

/-- From the width on, the positions of an integer show its sign. -/
theorem testBit_eq_sign (low : -2 ^ n ≤ v) (high : v < 2 ^ n) (above : n ≤ i) :
    v.testBit i = decide (v < 0) := by
  have grows : 2 ^ n ≤ 2 ^ i := Nat.pow_le_pow_right (by decide) above
  rw [two_pow_natCast] at low high
  cases v with
  | ofNat m =>
      have small : m < 2 ^ i := by
        rw [Int.ofNat_eq_natCast] at high
        omega
      show Nat.testBit m i = _
      rw [Nat.testBit_lt_two_pow small]
      exact (decide_eq_false (Int.not_lt.2 (Int.natCast_nonneg m))).symm
  | negSucc m =>
      have small : m < 2 ^ i := by omega
      show (!Nat.testBit m i) = _
      rw [Nat.testBit_lt_two_pow small]
      exact (decide_eq_true (Int.negSucc_lt_zero m)).symm

end

/-! ## Residues -/

namespace IntTy

variable {t : IntTy} {v w : Int}

/-- The number of integers that a type tells apart. -/
def modulus (t : IntTy) : Int :=
  2 ^ t.bits.toNat

theorem modulus_eq (sized : 1 ≤ t.size) : t.modulus = (1 : Int) <<< (8 * t.size.toNat) := by
  rw [modulus, (bits_toNat sized).1, Int.shiftLeft_eq, Int.one_mul]

theorem shiftedOne_bits (sized : 1 ≤ t.size) : shiftedOne t.bits = .ok t.modulus := by
  have nonneg : 0 ≤ t.bits := by unfold bits; omega
  rw [shiftedOne_of_nonneg nonneg, Int.shiftLeft_eq, Int.one_mul, modulus]

theorem modulus_pos (t : IntTy) : 0 < t.modulus :=
  Int.pow_pos (by decide)

/-- A type has as many integers as it tells apart. -/
theorem high_sub_low (sized : 1 ≤ t.size) : t.high - t.low + 1 = t.modulus := by
  have double := one_shiftLeft_bytes (n := t.size.toNat) (by omega)
  rw [modulus_eq sized]
  cases signed : t.signed with
  | true => simp only [low, high, signed, if_true]; omega
  | false => simp only [low, high, signed, Bool.false_eq_true, if_false, Nat.sub_zero]; omega

theorem exists_wrap (sized : 1 ≤ t.size) (v : Int) : ∃ w, t.wrap v = .ok w :=
  ⟨_, wrap_eq sized v⟩

/-- Wrapping stays in the residue class. -/
theorem modEq_of_wrap (sized : 1 ≤ t.size) (h : t.wrap v = .ok w) : w ≡ v [ZMOD t.modulus] := by
  rw [wrap_eq sized, Except.ok.injEq, ← modulus_eq sized] at h
  subst h
  have rest : v % t.modulus ≡ v [ZMOD t.modulus] := Int.mod_modEq v t.modulus
  dsimp only
  split
  · exact (Int.modEq_sub_modulus_iff.2 rest.symm).symm
  · exact rest

/-- A residue class has one integer of the type at most. -/
theorem eq_of_modEq (sized : 1 ≤ t.size) (hv : t.canRepresent v = .ok true)
    (hw : t.canRepresent w = .ok true) (h : v ≡ w [ZMOD t.modulus]) : v = w := by
  have width := high_sub_low sized
  rw [canRepresent_iff sized] at hv hw
  obtain ⟨k, hk⟩ := h.dvd
  -- two integers of the type are less than the modulus apart
  have near : -t.modulus < t.modulus * k ∧ t.modulus * k < t.modulus := by omega
  have zero : k = 0 := by
    have positive := t.modulus_pos
    have upper : k < 1 := by
      by_contra far
      have := Int.mul_le_mul_of_nonneg_left (show 1 ≤ k by omega) positive.le
      omega
    have lower : -1 < k := by
      by_contra far
      have := Int.mul_le_mul_of_nonneg_left (show k ≤ -1 by omega) positive.le
      omega
    omega
  rw [zero, Int.mul_zero] at hk
  omega

/-- An integer of the type is not changed by wrapping. -/
theorem wrap_of_canRepresent (sized : 1 ≤ t.size) (h : t.canRepresent v = .ok true) :
    t.wrap v = .ok v := by
  obtain ⟨w, hw⟩ := exists_wrap sized v
  rw [hw, eq_of_modEq sized (canRepresent_of_wrap sized hw) h (modEq_of_wrap sized hw)]

/-- The outcome is the integer of the type in the residue class of the exact result. -/
def Reduces (t : IntTy) (o : Except Fault Int) (exact : Int) : Prop :=
  ∃ v, o = .ok v ∧
    ∀ w, t.canRepresent w = .ok true ∧ w ≡ exact [ZMOD t.modulus] ↔ w = v

theorem reduces_wrap (sized : 1 ≤ t.size) (v : Int) : t.Reduces (t.wrap v) v := by
  obtain ⟨w, hw⟩ := exists_wrap sized v
  have fits := canRepresent_of_wrap sized hw
  have class_w := modEq_of_wrap sized hw
  refine ⟨w, hw, fun x => ⟨fun ⟨hx, class_x⟩ => ?_, ?_⟩⟩
  · exact eq_of_modEq sized hx fits (class_x.trans class_w.symm)
  · rintro rfl
    exact ⟨fits, class_w⟩

/-! ## Shifts -/

/-- The amount of a plain shift is the rest modulo the width, whatever the sign of the operand. -/
theorem shiftAmount_eq (sized : 1 ≤ t.size) (n : Int) :
    t.shiftAmount n = .ok (n % t.bits).toNat := by
  have positive : 0 < t.bits := by unfold bits; omega
  have nonneg := Int.emod_nonneg n (show t.bits ≠ 0 by omega)
  unfold shiftAmount
  rw [Int.fmod_eq_emod_of_nonneg n positive.le, if_neg (by omega), if_neg (by omega)]

theorem reduces_shiftLeft (sized : 1 ≤ t.size) (v : Int) (k : Nat) :
    t.Reduces (t.shiftLeft v k) (v * 2 ^ k) := by
  rw [shiftLeft, Int.shiftLeft_eq]
  exact reduces_wrap sized _

/-- Shifting right rounds down, and needs no wrapping. -/
theorem shiftRight_eq (sized : 1 ≤ t.size) (h : t.canRepresent v = .ok true) (k : Nat) :
    t.shiftRight v k = .ok (v / 2 ^ k) := by
  have positive : (0 : Int) < 2 ^ k := Int.pow_pos (by decide)
  have quotient : v >>> k = v / 2 ^ k := by
    rw [Int.shiftRight_eq_div_pow]
    push_cast
    rfl
  rw [shiftRight, quotient]
  refine wrap_of_canRepresent sized (canRepresent_of_between sized h ?_)
  by_cases sign : 0 ≤ v
  · exact Or.inl ⟨Int.ediv_nonneg sign positive.le, Int.ediv_le_self _ sign⟩
  · -- a negative number moves up, to minus one at most
    have below : v / 2 ^ k < 0 := Int.ediv_neg_of_neg_of_pos (by omega) positive
    have above : v ≤ v / 2 ^ k := by
      rw [Int.le_ediv_iff_mul_le positive]
      have := Int.mul_le_mul_of_nonpos_left (show v ≤ 0 by omega) (show (1 : Int) ≤ 2 ^ k by omega)
      omega
    exact Or.inr ⟨above, below.le⟩

/-- The amount of an unchecked shift is the operand itself, or there is none. -/
theorem uncheckedAmount_eq (operation : String) (n : Int) :
    (¬ (0 ≤ n ∧ n < t.bits) → IsUndefined (t.uncheckedAmount operation n)) ∧
      (0 ≤ n ∧ n < t.bits → t.uncheckedAmount operation n = .ok (n % t.bits).toNat) := by
  unfold uncheckedAmount
  constructor
  · intro outside
    refine ⟨.uncheckedOverflow operation, ?_⟩
    rw [require, if_neg (by simpa using outside)]
    rfl
  · rintro ⟨nonneg, below⟩
    rw [require, if_pos (by simp [nonneg, below]), Int.emod_eq_of_lt nonneg below]
    rfl

/-! ## Bitwise operations -/

/-- Above the width, an integer of the type repeats its sign bit, if the type has one. -/
theorem testBit_of_canRepresent (sized : 1 ≤ t.size) (h : t.canRepresent v = .ok true) {i : Nat}
    (above : 8 * t.size.toNat ≤ i) :
    v.testBit i = (t.signed && v.testBit (8 * t.size.toNat - 1)) := by
  rw [canRepresent_iff sized, low, high] at h
  cases signed : t.signed with
  | true =>
      simp only [signed, if_true, Int.shiftLeft_eq, Int.one_mul] at h
      rw [testBit_eq_sign h.1 (by omega) (show 8 * t.size.toNat - 1 ≤ i by omega),
        testBit_eq_sign h.1 (by omega) (Nat.le_refl _), Bool.true_and]
  | false =>
      simp only [signed, Bool.false_eq_true, if_false, Nat.sub_zero, Int.shiftLeft_eq,
        Int.one_mul] at h
      have positive : (0 : Int) < 2 ^ (8 * t.size.toNat) := Int.pow_pos (by decide)
      rw [testBit_eq_sign (by omega) (by omega) above, Bool.false_and]
      exact decide_eq_false (by omega)

/-- An operation on residues that acts position by position does so on integers of the type. -/
theorem exists_bitwise (sized : 1 ≤ t.size) {op : Nat → Nat → Nat} {f : Bool → Bool → Bool}
    (acts : ∀ a b i, (op a b).testBit i = f (a.testBit i) (b.testBit i))
    (blank : f false false = false) (hv : t.canRepresent v = .ok true)
    (hw : t.canRepresent w = .ok true) :
    ∃ x, t.bitwise op v w = .ok x ∧ ∀ i, x.testBit i = f (v.testBit i) (w.testBit i) := by
  have width := (bits_toNat sized).1
  obtain ⟨x, hx⟩ := exists_wrap sized
    ((op (v % t.modulus).toNat (w % t.modulus).toNat : Nat) : Int)
  have fits := canRepresent_of_wrap sized hx
  have below : ∀ i < 8 * t.size.toNat, x.testBit i = f (v.testBit i) (w.testBit i) := by
    intro i hi
    have same : x % 2 ^ t.bits.toNat =
        ((op (v % t.modulus).toNat (w % t.modulus).toNat : Nat) : Int) % 2 ^ t.bits.toNat :=
      modEq_of_wrap sized hx
    have bit := congrArg (fun y : Int => y.toNat.testBit i) same
    simp only [testBit_toNat_emod, width, hi, decide_true, Bool.true_and] at bit
    rw [bit]
    show (op _ _).testBit i = _
    rw [acts, modulus, testBit_toNat_emod, testBit_toNat_emod, width]
    simp only [hi, decide_true, Bool.true_and]
  refine ⟨x, ?_, fun i => ?_⟩
  · rw [bitwise, shiftedOne_bits sized]
    exact hx
  · by_cases hi : i < 8 * t.size.toNat
    · exact below i hi
    · -- the three integers repeat one and the same position from the width on
      rw [testBit_of_canRepresent sized fits (by omega), testBit_of_canRepresent sized hv (by omega),
        testBit_of_canRepresent sized hw (by omega), below _ (by omega)]
      cases t.signed
      · exact blank.symm
      · rfl

/-! ## Division -/

/-- The range is decided. -/
theorem canRepresent_eq_false_or (sized : 1 ≤ t.size) (v : Int) :
    t.canRepresent v = .ok false ∨ t.canRepresent v = .ok true := by
  rw [canRepresent_eq sized]
  cases decide (t.low ≤ v ∧ v ≤ t.high)
  · exact Or.inl rfl
  · exact Or.inr rfl

/-- There is a quotient unless the divisor is zero or the quotient does not fit. -/
theorem quotient_eq (sized : 1 ≤ t.size) (l r : Int) :
    (r = 0 ∨ t.canRepresent (l.tdiv r) = .ok false → IsUndefined (t.quotient l r)) ∧
      (¬ (r = 0 ∨ t.canRepresent (l.tdiv r) = .ok false) → t.quotient l r = .ok (l.tdiv r)) := by
  unfold quotient
  by_cases zero : r = 0
  · subst zero
    exact ⟨fun _ => ⟨.divisionByZero, rfl⟩, fun h => absurd (Or.inl rfl) h⟩
  · have nonzero : require (r != 0) (.undefined .divisionByZero) = .ok () := by
      rw [require, if_pos (by simpa using zero)]
    rw [nonzero]
    rcases canRepresent_eq_false_or sized (l.tdiv r) with no | yes
    · refine ⟨fun _ => ⟨.divisionOverflow, ?_⟩, fun h => absurd (Or.inr no) h⟩
      simp only [bind, Except.bind, no]
      rfl
    · refine ⟨fun h => ?_, fun _ => ?_⟩
      · rw [yes] at h
        rcases h with h | h
        · exact absurd h zero
        · cases h
      · simp only [bind, Except.bind, yes]
        rfl

/-- The exact result, where it fits. -/
theorem exactly_eq (sized : 1 ≤ t.size) (operation : String) (v : Int) :
    (t.canRepresent v = .ok false → IsUndefined (t.exactly operation v)) ∧
      (¬ t.canRepresent v = .ok false → t.exactly operation v = t.wrap v) := by
  unfold exactly
  constructor
  · intro no
    refine ⟨.uncheckedOverflow operation, ?_⟩
    simp only [bind, Except.bind, no]
    rfl
  · intro h
    have yes := (canRepresent_eq_false_or sized v).resolve_left h
    rw [wrap_of_canRepresent sized yes]
    simp only [bind, Except.bind, yes]
    rfl

end IntTy

/-! ## Operators -/

/-- Two numbers are the quotient and the rest of a division that rounds toward zero. -/
structure DividesInto (left right quotient rest : Int) : Prop where
  sum : left = right * quotient + rest
  small : |rest| < |right|
  sign : rest = 0 ∨ rest.sign = left.sign

theorem dividesInto_tdiv {l r : Int} (nonzero : r ≠ 0) :
    DividesInto l r (l.tdiv r) (l - r * l.tdiv r) where
  sum := by omega
  small := by
    rw [← Int.tmod_def, Int.abs_eq_natAbs, Int.abs_eq_natAbs, Int.natAbs_tmod]
    have below := Nat.mod_lt l.natAbs (Int.natAbs_pos.2 nonzero)
    omega
  sign := by
    rw [← Int.tmod_def, Int.sign_tmod]
    by_cases divides : r ∣ l
    · exact Or.inl (Int.tmod_eq_zero_of_dvd divides)
    · exact Or.inr (if_neg divides)

/-- One operation is undefined exactly where it is refused, and is another one elsewhere. -/
def RefusedOr (refused : Prop) (checked plain : Except Fault Int) : Prop :=
  (IsUndefined checked ↔ refused) ∧ (¬ refused → checked = plain)

/-- What the operators on two integers compute at a type. -/
structure IntTy.Computes (t : IntTy) (left right : Int) : Prop where
  total (op : IntBinOp) : IsUndefined (op.eval t left right) ∨
    ∃ v, op.eval t left right = .ok v ∧ t.canRepresent v = .ok true
  add : t.Reduces (IntBinOp.add.eval t left right) (left + right)
  sub : t.Reduces (IntBinOp.sub.eval t left right) (left - right)
  mul : t.Reduces (IntBinOp.mul.eval t left right) (left * right)
  shl : t.Reduces (IntBinOp.shl.eval t left right) (left * 2 ^ (right % t.bits).toNat)
  shr : IntBinOp.shr.eval t left right = .ok (left / 2 ^ (right % t.bits).toNat)
  bitAnd : t.canRepresent right = .ok true → ∃ v, IntBinOp.bitAnd.eval t left right = .ok v ∧
    ∀ i, v.testBit i = (left.testBit i && right.testBit i)
  bitOr : t.canRepresent right = .ok true → ∃ v, IntBinOp.bitOr.eval t left right = .ok v ∧
    ∀ i, v.testBit i = (left.testBit i || right.testBit i)
  bitXor : t.canRepresent right = .ok true → ∃ v, IntBinOp.bitXor.eval t left right = .ok v ∧
    ∀ i, v.testBit i = (left.testBit i ^^ right.testBit i)
  div_undefined : IsUndefined (IntBinOp.div.eval t left right) ↔
    right = 0 ∨ t.canRepresent (left.tdiv right) = .ok false
  rem_undefined : IsUndefined (IntBinOp.rem.eval t left right) ↔
    right = 0 ∨ t.canRepresent (left.tdiv right) = .ok false
  div_rem : ¬ (right = 0 ∨ t.canRepresent (left.tdiv right) = .ok false) →
    ∃ quotient rest, IntBinOp.div.eval t left right = .ok quotient ∧
      IntBinOp.rem.eval t left right = .ok rest ∧ DividesInto left right quotient rest
  addUnchecked : RefusedOr (t.canRepresent (left + right) = .ok false)
    (IntBinOp.addUnchecked.eval t left right) (IntBinOp.add.eval t left right)
  subUnchecked : RefusedOr (t.canRepresent (left - right) = .ok false)
    (IntBinOp.subUnchecked.eval t left right) (IntBinOp.sub.eval t left right)
  mulUnchecked : RefusedOr (t.canRepresent (left * right) = .ok false)
    (IntBinOp.mulUnchecked.eval t left right) (IntBinOp.mul.eval t left right)
  shlUnchecked : RefusedOr (¬ (0 ≤ right ∧ right < t.bits))
    (IntBinOp.shlUnchecked.eval t left right) (IntBinOp.shl.eval t left right)
  shrUnchecked : RefusedOr (¬ (0 ≤ right ∧ right < t.bits))
    (IntBinOp.shrUnchecked.eval t left right) (IntBinOp.shr.eval t left right)

section

variable {t : IntTy} {left right : Int}

theorem IsUndefined.bind {α β : Type} {o : Except Fault α} (h : IsUndefined o)
    (f : α → Except Fault β) : IsUndefined (o >>= f) := by
  obtain ⟨u, rfl⟩ := h
  exact ⟨u, rfl⟩

theorem refusedOr_exactly (sized : 1 ≤ t.size) (operation : String) (v : Int) :
    RefusedOr (t.canRepresent v = .ok false) (t.exactly operation v) (t.wrap v) := by
  obtain ⟨yes, no⟩ := IntTy.exactly_eq sized operation v
  obtain ⟨w, hw⟩ := IntTy.exists_wrap sized v
  exact ⟨isUndefined_iff yes fun h => ⟨w, (no h).trans hw⟩, no⟩

/-- An unchecked shift is the plain one wherever its amount is one. -/
theorem refusedOr_shift (sized : 1 ≤ t.size) (operation : String) {shift : Nat → Except Fault Int}
    (total : ∀ k, ∃ v, shift k = .ok v) :
    RefusedOr (¬ (0 ≤ right ∧ right < t.bits)) (t.uncheckedAmount operation right >>= shift)
      (t.shiftAmount right >>= shift) := by
  obtain ⟨yes, no⟩ := t.uncheckedAmount_eq operation right
  have plain := t.shiftAmount_eq sized right
  obtain ⟨v, hv⟩ := total (right % t.bits).toNat
  have same : ¬ ¬ (0 ≤ right ∧ right < t.bits) →
      (t.uncheckedAmount operation right >>= shift) = (t.shiftAmount right >>= shift) := by
    intro inside
    rw [no (not_not.1 inside), plain]
  refine ⟨isUndefined_iff (fun outside => (yes outside).bind shift) fun inside => ⟨v, ?_⟩, same⟩
  rw [same inside, plain]
  exact hv

/-- Where there is a quotient, it and the rest are those of the division. -/
theorem exists_div_rem (sized : 1 ≤ t.size)
    (defined : ¬ (right = 0 ∨ t.canRepresent (left.tdiv right) = .ok false)) :
    ∃ quotient rest, IntBinOp.div.eval t left right = .ok quotient ∧
      IntBinOp.rem.eval t left right = .ok rest ∧ DividesInto left right quotient rest := by
  have answer := (t.quotient_eq sized left right).2 defined
  refine ⟨_, _, answer, ?_, dividesInto_tdiv fun zero => defined (Or.inl zero)⟩
  show (do return left - right * (← t.quotient left right) : Except Fault Int) = _
  rw [answer]
  rfl

theorem RefusedOr.isUndefined_or_ok {refused : Prop} {checked plain : Except Fault Int}
    (h : RefusedOr refused checked plain) (answered : ∃ v, plain = .ok v) :
    IsUndefined checked ∨ ∃ v, checked = .ok v := by
  by_cases no : refused
  · exact Or.inl (h.1.2 no)
  · rw [h.2 no]
    exact Or.inr answered

theorem exists_shift (sized : 1 ≤ t.size) {shift : Nat → Except Fault Int}
    (total : ∀ k, ∃ v, shift k = .ok v) : ∃ v, (t.shiftAmount right >>= shift) = .ok v := by
  rw [t.shiftAmount_eq sized]
  exact total _

theorem isUndefined_div_iff (sized : 1 ≤ t.size) :
    IsUndefined (IntBinOp.div.eval t left right) ↔
      right = 0 ∨ t.canRepresent (left.tdiv right) = .ok false :=
  isUndefined_iff (t.quotient_eq sized left right).1 fun defined =>
    ⟨_, (t.quotient_eq sized left right).2 defined⟩

theorem isUndefined_rem_iff (sized : 1 ≤ t.size) :
    IsUndefined (IntBinOp.rem.eval t left right) ↔
      right = 0 ∨ t.canRepresent (left.tdiv right) = .ok false := by
  refine isUndefined_iff (fun h => ((t.quotient_eq sized left right).1 h).bind _) fun defined => ?_
  obtain ⟨_, rest, -, answer, -⟩ := exists_div_rem sized defined
  exact ⟨rest, answer⟩

/-- Every operator yields an integer, or is undefined. -/
theorem IntBinOp.isUndefined_or_ok (sized : 1 ≤ t.size) (op : IntBinOp) :
    IsUndefined (op.eval t left right) ∨ ∃ v, op.eval t left right = .ok v := by
  have wraps := fun v => t.exists_wrap sized v
  cases op with
  | add | sub | mul => exact Or.inr (wraps _)
  | shl | shr => exact Or.inr (exists_shift sized fun _ => wraps _)
  | bitAnd | bitOr | bitXor =>
      refine Or.inr ?_
      show ∃ v, t.bitwise _ left right = .ok v
      rw [IntTy.bitwise, IntTy.shiftedOne_bits sized]
      exact wraps _
  | div =>
      by_cases no : right = 0 ∨ t.canRepresent (left.tdiv right) = .ok false
      · exact Or.inl ((isUndefined_div_iff sized).2 no)
      · obtain ⟨quotient, _, answer, -⟩ := exists_div_rem sized no
        exact Or.inr ⟨quotient, answer⟩
  | rem =>
      by_cases no : right = 0 ∨ t.canRepresent (left.tdiv right) = .ok false
      · exact Or.inl ((isUndefined_rem_iff sized).2 no)
      · obtain ⟨_, rest, -, answer, -⟩ := exists_div_rem sized no
        exact Or.inr ⟨rest, answer⟩
  | addUnchecked | subUnchecked | mulUnchecked =>
      exact (refusedOr_exactly sized _ _).isUndefined_or_ok (wraps _)
  | shlUnchecked | shrUnchecked =>
      exact (refusedOr_shift sized _ fun _ => wraps _).isUndefined_or_ok
        (exists_shift sized fun _ => wraps _)

/-- The operators compute what exact arithmetic says, at every type of at least one byte. -/
theorem IntTy.computes_of_canRepresent (sized : 1 ≤ t.size) (hl : t.canRepresent left = .ok true) :
    t.Computes left right where
  total op := by
    rcases op.isUndefined_or_ok sized with undefined | ⟨v, hv⟩
    · exact Or.inl undefined
    · exact Or.inr ⟨v, hv, IntBinOp.canRepresent_of_eval sized hl hv⟩
  add := t.reduces_wrap sized _
  sub := t.reduces_wrap sized _
  mul := t.reduces_wrap sized _
  shl := by
    show t.Reduces (t.shiftAmount right >>= t.shiftLeft left) _
    rw [t.shiftAmount_eq sized]
    exact t.reduces_shiftLeft sized left _
  shr := by
    show (t.shiftAmount right >>= t.shiftRight left) = _
    rw [t.shiftAmount_eq sized]
    exact t.shiftRight_eq sized hl _
  bitAnd hr := t.exists_bitwise sized (fun a b i => Nat.testBit_and a b i) rfl hl hr
  bitOr hr := t.exists_bitwise sized (fun a b i => Nat.testBit_or a b i) rfl hl hr
  bitXor hr := t.exists_bitwise sized (fun a b i => Nat.testBit_xor a b i) rfl hl hr
  div_undefined := isUndefined_div_iff sized
  rem_undefined := isUndefined_rem_iff sized
  div_rem := exists_div_rem sized
  addUnchecked := refusedOr_exactly sized "add" (left + right)
  subUnchecked := refusedOr_exactly sized "sub" (left - right)
  mulUnchecked := refusedOr_exactly sized "mul" (left * right)
  shlUnchecked := refusedOr_shift sized "shl" fun _ => t.exists_wrap sized _
  shrUnchecked := refusedOr_shift sized "shr" fun _ => t.exists_wrap sized _

/-- The least integer of a signed byte, and minus one, whose quotient does not fit. -/
theorem IntTy.computes_least :
    (1 : Int) ≤ (⟨true, 1⟩ : IntTy).size ∧ (⟨true, 1⟩ : IntTy).canRepresent (-128) = .ok true ∧
      (⟨true, 1⟩ : IntTy).Computes (-128) (-1) :=
  ⟨by decide, rfl, computes_of_canRepresent (by decide) rfl⟩

end

end AbstractMachine
