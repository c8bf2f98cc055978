/-
# AbstractMachine.Proofs.Residues — byte strings of one length are residues

There are as many strings of `n` bytes as residues modulo `2 ^ (8 * n)`, and the string that spells
a residue in base 256 is the one that its integers are written as (`lowBytes_eq_iff`). A residue has
one representative from zero up and one around zero: these are the integers that `n` bytes have room
for, without and with a sign (`HasRoom`). Writing takes the representative to the residue. Reading
takes the residue back, and has to be told which of the two representatives is meant.

So each kind of integers is in bijection with the strings, in either byte order
(`Endian.codec_bijective`), and integers of different kinds share a string if they are congruent.
Two limits keep what is answered to a request from being just that. No string is longer than
`Endian.maxLength`, so beyond it an integer is refused though there is room for it; and a refusal
cannot be told if the integer has too many digits to be named
(`Endian.refused_with_room_and_untold`).
-/
import Mathlib.Data.Int.ModEq
import Mathlib.Data.Nat.Digits.Defs
import AbstractMachine.Proofs.Codec

namespace AbstractMachine

variable {n : Nat} {v w : Int} {signed : Bool}

/-! ## Integers that bytes have room for -/

/-- There is room for an integer in `n` bytes, in two's complement if it has a sign. -/
def HasRoom (n : Nat) : Bool → Int → Prop
  | true, v => -2 ^ (8 * n - 1) ≤ v ∧ v < 2 ^ (8 * n - 1)
  | false, v => 0 ≤ v ∧ v < 2 ^ (8 * n)

theorem one_shiftLeft_eq_pow (k : Nat) : (1 : Int) <<< k = 2 ^ k := by
  rw [Int.shiftLeft_eq, Int.one_mul]

theorem fitsBytes_eq_true_iff : fitsBytes v n signed = true ↔ HasRoom n signed v := by
  cases signed with
  | true =>
      rw [fitsBytes_signed, one_shiftLeft_eq_pow]
      rfl
  | false =>
      rw [fitsBytes_unsigned, one_shiftLeft_eq_pow]
      rfl

/-- The range of an integer type is what its bytes have room for. -/
theorem IntTy.canRepresent_iff_hasRoom (sized : 1 ≤ n) :
    (IntTy.mk signed n).canRepresent v = .ok true ↔ HasRoom n signed v := by
  have width : (1 : Int) ≤ n := by omega
  rw [IntTy.canRepresent_eq_true_iff, ← fitsBytes_eq_true_iff]
  simp [width]

/-! ## Digits -/

theorem natOfBytes_eq_ofDigits (bs : List UInt8) :
    natOfBytes bs = Nat.ofDigits 256 (bs.map UInt8.toNat) := by
  induction bs with
  | nil => rfl
  | cons b bs ih => rw [natOfBytes, List.map_cons, Nat.ofDigits_cons, ih]

/-- Integers have the same low bytes if they are congruent, and only then. -/
theorem lowBytes_eq_iff : lowBytes n v = lowBytes n w ↔ v ≡ w [ZMOD 2 ^ (8 * n)] := by
  rw [Int.ModEq, ← one_shiftLeft_eq_pow]
  constructor
  · intro same
    rw [← natOfBytes_lowBytes, same, natOfBytes_lowBytes]
  · intro residue
    rw [← lowBytes_emod n v, residue, lowBytes_emod]

/-! ## The codec -/

namespace Endian

/-- An integer is written as its low bytes if there is room for it, and is a defect otherwise. -/
theorem encode_natCast (e : Endian) (v : Int) (n : Nat) (signed : Bool) :
    e.encode v n signed =
      if fitsBytes v n signed then .ok (e.arrange (lowBytes n v))
      else .error (.defect (.integerRange v n signed)) := by
  simp [encode, Int.not_lt.mpr (Int.natCast_nonneg n)]

theorem encode_natCast_iff {e : Endian} {bs : List UInt8} :
    e.encode v n signed = .ok bs ↔ HasRoom n signed v ∧ bs = e.arrange (lowBytes n v) := by
  rw [encode_eq_ok_iff, Int.toNat_natCast, fitsBytes_eq_true_iff]
  simp

/-- The other byte order writes the same bytes the other way round. -/
theorem encode_big (v : Int) (n : Nat) (signed : Bool) :
    big.encode v n signed = (little.encode v n signed).map List.reverse := by
  rw [encode_natCast, encode_natCast]
  split <;> rfl

/-! ## What is answered -/

theorem isShort_natCast (counted : n ≤ maxLength) : Text.isShort (n : Int) := by
  have short : Text.isShort (maxLength : Int) := by decide +kernel
  exact Text.isShort_of_natAbs_le (by simpa using counted) short

/-- A refusal is told if the integer is short enough to be named in it. -/
theorem told_integerRange (counted : n ≤ maxLength) :
    Fault.told (.defect (.integerRange v n signed)) =
      if Text.isShort v then .defect (.integerRange v n signed)
      else .arithmetic .tooManyDigits := by
  simp [Fault.told, Fault.numbers, Defect.numbers, isShort_natCast counted]

/-- As many bytes as a string may have are answered with what is written, or with what can be told
of the refusal. -/
theorem write_of_le (e : Endian) (v : Int) (signed : Bool) (counted : n ≤ maxLength) :
    e.write v n signed = (e.encode v n signed).mapError Fault.told := by
  have lower : -(1 : Int) <<< (63 : Nat) ≤ (n : Int) :=
    Int.le_trans (by decide) (Int.natCast_nonneg n)
  rw [write, if_pos ⟨lower, Int.ofNat_le.2 counted⟩]

/-- More bytes than a string may have are refused for every integer. -/
theorem write_of_gt (e : Endian) (v : Int) (signed : Bool) (uncounted : maxLength < n) :
    e.write v n signed = .error (Fault.told (.defect (.integerRange v n signed))) := by
  rw [write, if_neg fun counted => absurd (Int.ofNat_le.1 counted.2) (Nat.not_le.2 uncounted)]

/-- The bytes that are answered are those that are written. -/
theorem write_eq_ok_iff {e : Endian} {bs : List UInt8} :
    e.write v n signed = .ok bs ↔ n ≤ maxLength ∧ e.encode v n signed = .ok bs := by
  rcases Nat.lt_or_ge maxLength n with uncounted | counted
  · rw [write_of_gt e v signed uncounted]
    simp [Nat.not_le.2 uncounted]
  · rw [write_of_le e v signed counted]
    cases e.encode v n signed <;> simp [Except.mapError, counted]

/-- What is answered if there is no room for the integer. -/
theorem write_of_not_hasRoom (e : Endian) (counted : n ≤ maxLength)
    (outside : ¬ HasRoom n signed v) :
    e.write v n signed = .error (if Text.isShort v then .defect (.integerRange v n signed)
      else .arithmetic .tooManyDigits) := by
  rw [← fitsBytes_eq_true_iff] at outside
  rw [write_of_le e v signed counted, encode_natCast, if_neg outside, ← told_integerRange counted]
  rfl

/-- The other byte order is answered with the same bytes the other way round. -/
theorem write_big (v : Int) (n : Nat) (signed : Bool) :
    big.write v n signed = (little.write v n signed).map List.reverse := by
  rcases Nat.lt_or_ge maxLength n with uncounted | counted
  · rw [write_of_gt big v signed uncounted, write_of_gt little v signed uncounted]
    rfl
  · rw [write_of_le big v signed counted, write_of_le little v signed counted, encode_big]
    cases little.encode v n signed <;> rfl

/-- Writing and reading `n` bytes are inverse to each other: between the integers that there is room
for, which alone can be written, and all strings of that length. Any other integer is a defect that
names it, or has too many digits for that. -/
structure Inverts (e : Endian) (n : Nat) (signed : Bool) : Prop where
  writes_iff : ∀ v, (∃ bs, e.write v n signed = .ok bs) ↔ HasRoom n signed v
  refuses : ∀ v, ¬ HasRoom n signed v → Text.isShort v →
    e.write v n signed = .error (.defect (.integerRange v n signed))
  leaves_untold : ∀ v, ¬ HasRoom n signed v → ¬ Text.isShort v →
    e.write v n signed = .error (.arithmetic .tooManyDigits)
  length_eq : ∀ v bs, e.write v n signed = .ok bs → bs.length = n
  decode_write : ∀ v bs, e.write v n signed = .ok bs → e.decode bs signed = v
  write_decode : ∀ bs, bs.length = n → e.write (e.decode bs signed) n signed = .ok bs

/-- With at least one byte, writing and reading are inverse to each other for either kind of
integers. Without any, a sign would let minus one be written, and zero be read. -/
theorem inverts (e : Endian) (sized : 1 ≤ n) (counted : n ≤ maxLength) (signed : Bool) :
    e.Inverts n signed where
  writes_iff v := by
    simp only [write_eq_ok_iff, encode_natCast_iff, counted, true_and, exists_and_left, exists_eq,
      and_true]
  refuses v outside short := by rw [write_of_not_hasRoom e counted outside, if_pos short]
  leaves_untold v outside long := by rw [write_of_not_hasRoom e counted outside, if_neg long]
  length_eq v bs written := by
    have size := length_of_encode (write_eq_ok_iff.1 written).2
    omega
  decode_write v bs written := decode_encode (write_eq_ok_iff.1 written).2 fun _ => by omega
  write_decode bs size := write_eq_ok_iff.2 ⟨counted, size ▸ encode_decode e bs signed⟩

/-- Reading and writing at least one byte, and no more than a string may have, are inverse to each
other in either byte order, with and without a sign, and the range of the integer type of that size
is what can be written. In more bytes every integer is refused. The two byte orders are the reverse
of each other. In the little-endian one the bytes are the digits of the residue in base 256, so two
integers of any kinds have the same bytes if they are congruent, and only then. -/
theorem codec_bijective (sized : 1 ≤ n) :
    (n ≤ maxLength → ∀ (e : Endian) (signed : Bool), e.Inverts n signed) ∧
    (maxLength < n → ∀ (e : Endian) (v : Int) (signed : Bool),
      e.write v n signed = .error (Fault.told (.defect (.integerRange v n signed)))) ∧
    (∀ (v : Int) (signed : Bool),
      (IntTy.mk signed n).canRepresent v = .ok true ↔ HasRoom n signed v) ∧
    (∀ (v : Int) (signed : Bool),
      big.write v n signed = (little.write v n signed).map List.reverse) ∧
    (∀ (v : Int) (signed : Bool) (bs : List UInt8), little.write v n signed = .ok bs →
      ((Nat.ofDigits 256 (bs.map UInt8.toNat) : Nat) : Int) = v % 2 ^ (8 * n)) ∧
    ∀ (e : Endian) (v w : Int) (signedV signedW : Bool) (bs cs : List UInt8),
      e.write v n signedV = .ok bs → e.write w n signedW = .ok cs →
        (bs = cs ↔ v ≡ w [ZMOD 2 ^ (8 * n)]) := by
  refine ⟨fun counted e signed => e.inverts sized counted signed,
    fun uncounted e v signed => e.write_of_gt v signed uncounted,
    fun v signed => IntTy.canRepresent_iff_hasRoom sized,
    fun v signed => write_big v n signed, ?_, ?_⟩
  · intro v signed bs written
    obtain ⟨-, rfl⟩ := encode_natCast_iff.1 (write_eq_ok_iff.1 written).2
    rw [arrange, ← natOfBytes_eq_ofDigits, natOfBytes_lowBytes, one_shiftLeft_eq_pow]
  · intro e v w signedV signedW bs cs hv hw
    obtain ⟨-, rfl⟩ := encode_natCast_iff.1 (write_eq_ok_iff.1 hv).2
    obtain ⟨-, rfl⟩ := encode_natCast_iff.1 (write_eq_ok_iff.1 hw).2
    -- the order in which bytes are put does not tell strings apart
    rw [← lowBytes_eq_iff]
    exact ⟨fun same => by simpa using congrArg e.arrange same, congrArg e.arrange⟩

/-- Two integers that share their two bytes, big-endian; the one above has no room with a sign. -/
theorem codec_bijective_twoBytes :
    1 ≤ 2 ∧ 2 ≤ maxLength ∧ big.write (-2) 2 true = .ok [0xFF, 0xFE] ∧
      big.write 65534 2 false = .ok [0xFF, 0xFE] ∧ big.decode [0xFF, 0xFE] true = -2 ∧
      big.decode [0xFF, 0xFE] false = 65534 ∧
      big.write 65534 2 true = .error (.defect (.integerRange 65534 2 true)) ∧
      -2 ≡ 65534 [ZMOD 2 ^ 16] := by
  have counted : 2 ≤ maxLength := by decide
  obtain ⟨inverts, -, -, -, -, shared⟩ := codec_bijective (n := 2) (by decide)
  have below : big.write (-2) 2 true = .ok [0xFF, 0xFE] := rfl
  have above : big.write 65534 2 false = .ok [0xFF, 0xFE] := rfl
  refine ⟨by decide, counted, below, above, (inverts counted big true).decode_write _ _ below,
    (inverts counted big false).decode_write _ _ above,
    (inverts counted big true).refuses _ ?_ (by decide +kernel),
    (shared _ _ _ _ _ _ _ below above).1 rfl⟩
  simp [HasRoom]

/-- Zero is refused though there is room for it in more bytes than a string may have, and a refusal
that has to name an integer of more than 4300 digits is no defect. -/
theorem refused_with_room_and_untold :
    (HasRoom 9223372036854775808 false 0 ∧
      little.write 0 9223372036854775808 false =
        .error (.defect (.integerRange 0 9223372036854775808 false))) ∧
    ¬ HasRoom 1 false (10 ^ 4300) ∧
      little.write (10 ^ 4300) 1 false = .error (.arithmetic .tooManyDigits) := by
  have refused := write_of_gt (n := 9223372036854775808) little 0 false (by decide)
  rw [Fault.told_eq_self (by decide +kernel)] at refused
  have outside : ¬ HasRoom 1 false (10 ^ 4300) := fun room =>
    absurd room.2 (Int.not_lt.2 (by decide +kernel))
  have untold := write_of_not_hasRoom little (by decide) outside
  rw [if_neg (by decide +kernel)] at untold
  exact ⟨⟨⟨Int.le_refl 0, pow_pos (by decide) _⟩, refused⟩, outside, untold⟩

end Endian

end AbstractMachine
