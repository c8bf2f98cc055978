/-
# AbstractMachine.Address — addresses and sizes of a target

Addresses are the integers of the unsigned type of pointer width, and distances those of the signed
one. So what is asked about addresses is asked about those two types, and fails where they have no
range: `addrInBounds_eq`, `wrapAddr_eq` and `validSize_eq` give the values for a pointer of at least
one byte, which is all that any target of a program has.
-/
import AbstractMachine.Ty.Int

namespace AbstractMachine

/-- The unsigned integer type of pointer width. -/
def IntTy.usize (target : Target) : IntTy := ⟨false, target.ptrSize⟩

/-- The signed integer type of pointer width. -/
def IntTy.isize (target : Target) : IntTy := ⟨true, target.ptrSize⟩

namespace Target

/-- One past the largest address. -/
def addrLimit (t : Target) : Except Fault Int := shiftedOne t.ptrBits

/-- Whether an integer is an address. -/
def addrInBounds (t : Target) (addr : Int) : Except Fault Bool :=
  (IntTy.usize t).canRepresent addr

/-- The address congruent to an integer. -/
def wrapAddr (t : Target) (addr : Int) : Except Fault Int :=
  (IntTy.usize t).wrap addr

/-- Whether an integer is a distance between addresses. -/
def isizeInBounds (t : Target) (n : Int) : Except Fault Bool :=
  (IntTy.isize t).canRepresent n

/-- Whether an integer may be the size of an allocation. -/
def validSize (t : Target) (size : Int) : Except Fault Bool := do
  if size < 0 then return false
  return size ≤ (← (IntTy.isize t).max)

/-! ## Pointers of at least one byte -/

/-- One past the largest address of a target whose pointers have at least one byte. -/
def limit (t : Target) : Int := (1 : Int) <<< (8 * t.ptrSize.toNat)

variable {t : Target}

theorem limit_pos (t : Target) : 0 < t.limit := by
  rw [limit, Int.shiftLeft_eq, Int.one_mul]
  exact Int.pow_pos (by decide)

theorem addrLimit_eq (h : 1 ≤ t.ptrSize) : t.addrLimit = .ok t.limit := by
  have width : t.ptrBits.toNat = 8 * t.ptrSize.toNat := by simp only [ptrBits]; omega
  rw [addrLimit, shiftedOne_of_nonneg (by simp only [ptrBits]; omega), width, limit]

theorem addrInBounds_eq (h : 1 ≤ t.ptrSize) (addr : Int) :
    t.addrInBounds addr = .ok (decide (0 ≤ addr ∧ addr < t.limit)) := by
  have high : (IntTy.usize t).high = t.limit - 1 := by simp [IntTy.high, IntTy.usize, limit]
  have low : (IntTy.usize t).low = 0 := by simp [IntTy.low, IntTy.usize]
  rw [addrInBounds, IntTy.canRepresent_eq (t := IntTy.usize t) h, high, low]
  simp only [Except.ok.injEq, decide_eq_decide]
  omega

theorem wrapAddr_eq (h : 1 ≤ t.ptrSize) (addr : Int) :
    t.wrapAddr addr = .ok (addr % t.limit) := by
  rw [wrapAddr, IntTy.wrap_eq (t := IntTy.usize t) h]
  simp [IntTy.usize, limit]

theorem isizeInBounds_eq (h : 1 ≤ t.ptrSize) (n : Int) :
    t.isizeInBounds n = .ok (decide ((IntTy.isize t).low ≤ n ∧ n ≤ (IntTy.isize t).high)) :=
  IntTy.canRepresent_eq (t := IntTy.isize t) h n

theorem validSize_eq (h : 1 ≤ t.ptrSize) (size : Int) :
    t.validSize size = .ok (decide (0 ≤ size ∧ size ≤ (IntTy.isize t).high)) := by
  simp only [validSize, IntTy.max_eq (t := IntTy.isize t) h, bind, Except.bind, pure, Except.pure]
  by_cases negative : size < 0
  · simp [negative, Int.not_le.mpr negative]
  · simp [negative, Int.not_lt.mp negative]

/-- An address that was wrapped around is an address. -/
theorem addrInBounds_of_wrapAddr {addr wrapped : Int} (h : 1 ≤ t.ptrSize)
    (w : t.wrapAddr addr = .ok wrapped) : t.addrInBounds wrapped = .ok true := by
  rw [wrapAddr_eq h, Except.ok.injEq] at w
  have pos := t.limit_pos
  rw [addrInBounds_eq h, ← w]
  simp [Int.emod_nonneg addr (show t.limit ≠ 0 by omega), Int.emod_lt_of_pos addr pos]

end Target

/-- Move a pointer by a number of bytes, around the end of the address space if need be. -/
def Pointer.wrappingOffset (p : Pointer) (offset : Int) (t : Target) : Except Fault Pointer := do
  return { p with addr := ← t.wrapAddr (p.addr + offset) }

end AbstractMachine
