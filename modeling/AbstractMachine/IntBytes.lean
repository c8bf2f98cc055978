/-
# AbstractMachine.IntBytes — integers as bytes

An integer of `n` bytes is written in base 256, in two's complement if it has a sign. Digits are
split off by division that rounds down, so that a negative integer yields the digits of its
complement without further ado. Big-endian is the reverse of little-endian.

An integer fits `n` unsigned bytes if it lies in `[0, 2^(8n))`. It fits `n` signed bytes if all its
bits from the sign bit up are equal: dividing by the weight of the sign bit leaves `0` or `-1`.

The rest of the machine writes integers with `Endian.encode`, which has one way to refuse them. Who
asks for bytes directly is answered by `Endian.write`, and that has two limits more: on how long a
string of bytes may be, and on how long a number may be that is named in a refusal.
-/
import AbstractMachine.Fault.Told

namespace AbstractMachine

/-- The byte with these bits, which have to be those of a byte. -/
def AbsByte.ofInt (n : Int) (provenance : Option AllocId) : Except Fault AbsByte :=
  if 0 ≤ n ∧ n < 256 then .ok (.init (UInt8.ofNat n.toNat) provenance)
  else .error (.defect (.byteRange n))

/-! ## Digits -/

/-- The `n` least significant bytes of an integer, least significant first. -/
def lowBytes : Nat → Int → List UInt8
  | 0, _ => []
  | n + 1, v => UInt8.ofNat (v % 256).toNat :: lowBytes n (v / 256)

/-- The natural number that bytes spell in base 256, least significant first. -/
def natOfBytes : List UInt8 → Nat
  | [] => 0
  | b :: bs => b.toNat + 256 * natOfBytes bs

@[simp] theorem length_lowBytes (n : Nat) (v : Int) : (lowBytes n v).length = n := by
  induction n generalizing v with
  | zero => rfl
  | succ n ih => simp [lowBytes, ih]

theorem natOfBytes_lt (bs : List UInt8) : natOfBytes bs < 1 <<< (8 * bs.length) := by
  induction bs with
  | nil => decide
  | cons b bs ih =>
      have hb : b.toNat < 256 := b.toNat_lt
      have hs : 1 <<< (8 * (b :: bs).length) = 256 * 1 <<< (8 * bs.length) := by
        rw [List.length_cons, Nat.mul_succ, Nat.shiftLeft_add, Nat.shiftLeft_eq _ 8]
        omega
      rw [hs]
      simp only [natOfBytes]
      omega

/-- Bytes are the digits of the number that they spell. -/
theorem lowBytes_natOfBytes (bs : List UInt8) :
    lowBytes bs.length (natOfBytes bs : Int) = bs := by
  induction bs with
  | nil => rfl
  | cons b bs ih =>
      have hb : b.toNat < 256 := b.toNat_lt
      have hm : ((natOfBytes (b :: bs) : Nat) : Int) % 256 = (b.toNat : Int) := by
        simp only [natOfBytes]; omega
      have hd : ((natOfBytes (b :: bs) : Nat) : Int) / 256 = (natOfBytes bs : Int) := by
        simp only [natOfBytes]; omega
      simp [lowBytes, hm, hd, ih]

/-- Reading digits back gives the integer modulo two to the number of bits. -/
theorem natOfBytes_lowBytes (n : Nat) (v : Int) :
    (natOfBytes (lowBytes n v) : Int) = v % (1 : Int) <<< (8 * n) := by
  induction n generalizing v with
  | zero => simp [lowBytes, natOfBytes, Int.shiftLeft_eq]
  | succ n ih =>
      have hr : 0 ≤ v % 256 ∧ v % 256 < 256 := by omega
      have hb : (UInt8.ofNat (v % 256).toNat).toNat = (v % 256).toNat := by
        rw [UInt8.toNat_ofNat']; omega
      have hs : (1 : Int) <<< (8 * (n + 1)) = 256 * (1 : Int) <<< (8 * n) := by
        simp only [Int.shiftLeft_eq, Nat.mul_succ, Int.pow_add]
        omega
      simp only [lowBytes, natOfBytes, hb, Int.natCast_add, Int.natCast_mul, ih,
        Int.toNat_of_nonneg hr.1]
      rw [hs, Int.emod_def v (256 * _), Int.emod_def (v / 256),
        ← Int.ediv_ediv_of_nonneg (by decide : (0 : Int) ≤ 256), Int.emod_def v 256]
      rw [Int.mul_assoc 256]
      omega

/-! ## The codec -/

/-- Whether an integer fits a number of bytes. -/
def fitsBytes (v : Int) (size : Nat) (signed : Bool) : Bool :=
  if signed then
    let rest := v >>> (8 * size - 1)
    rest == 0 || rest == -1
  else 0 ≤ v && v < (1 : Int) <<< (8 * size)

namespace Endian

/-- Put least-significant-first bytes into memory order, or back. -/
def arrange : Endian → List UInt8 → List UInt8
  | little, bs => bs
  | big, bs => bs.reverse

/-- The bytes of an integer, in memory order. The integer has to fit, and is named in the defect
otherwise, however many digits it has: that there may be too many to write is looked at in
`Fault.told` only. Nor is there a limit to the number of bytes. -/
def encode (e : Endian) (v size : Int) (signed : Bool) : Except Fault (List UInt8) :=
  if size < 0 then .error (.arithmetic .negativeLength)
  else if fitsBytes v size.toNat signed then .ok (e.arrange (lowBytes size.toNat v))
  else .error (.defect (.integerRange v size signed))

/-- The greatest length of a string of bytes. The string, with what is kept beside its bytes, is
measured by integers of 64 bits. -/
def maxLength : Nat := (1 <<< 63) - 34

/-- What is answered to a request for the bytes of an integer. The length has to be one of 64 bits
with a sign, and no more than a string may have; beyond that no integer fits. A refusal has to be
told, and cannot if the integer has too many digits. -/
def write (e : Endian) (v size : Int) (signed : Bool) : Except Fault (List UInt8) :=
  if -(1 : Int) <<< (63 : Nat) ≤ size ∧ size ≤ maxLength then
    (e.encode v size signed).mapError Fault.told
  else .error (Fault.told (.defect (.integerRange v size signed)))

/-- The integer that bytes in memory order stand for; no bytes stand for zero. -/
def decode (e : Endian) (bs : List UInt8) (signed : Bool) : Int :=
  let n := natOfBytes (e.arrange bs)
  if signed && 1 <<< (8 * bs.length - 1) ≤ n then n - (1 <<< (8 * bs.length) : Nat) else n

@[simp] theorem arrange_arrange (e : Endian) (bs : List UInt8) : e.arrange (e.arrange bs) = bs := by
  cases e <;> simp [arrange]

@[simp] theorem length_arrange (e : Endian) (bs : List UInt8) :
    (e.arrange bs).length = bs.length := by
  cases e <;> simp [arrange]

theorem encode_eq_ok_iff {e : Endian} {v size : Int} {signed : Bool} {bs : List UInt8} :
    e.encode v size signed = .ok bs ↔
      0 ≤ size ∧ fitsBytes v size.toNat signed = true ∧ bs = e.arrange (lowBytes size.toNat v) := by
  unfold encode
  split
  · simp; omega
  · split
    · simp_all only [Except.ok.injEq]; grind
    · simp_all

end Endian

end AbstractMachine
