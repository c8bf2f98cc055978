/-
# AbstractMachine.Proofs.Machine.Resizing — casts between integers resize their bytes

A cast from one integer type to another picks an integer by arithmetic, and the codec spells integers
in base 256, in either byte order; neither looks at the other. They meet in the digits. The digit at
a place depends on the residue modulo any higher power of 256 alone, and a cast keeps the residue, so
it keeps the digits that the new type has room for. From its own size on, an integer that fits it
repeats its sign, so that is what further digits show.

So a cast cuts bytes off or draws them out (`IntTy.Resized`). Where it does neither it reinterprets
the bytes, as a transmute does, and going through a wider type first changes nothing.
-/
import AbstractMachine.Proofs.Arithmetic
import AbstractMachine.Proofs.Machine.Operations
import AbstractMachine.Proofs.Representation.Formers
import AbstractMachine.Proofs.Representation.Scalars
import AbstractMachine.Proofs.Residues

namespace AbstractMachine

/-! ## Digits -/

section Digits

variable {v w : Int} {n i : Nat}

/-- The digit of an integer in base 256 at a place, in two's complement. -/
def digit (v : Int) (i : Nat) : UInt8 :=
  UInt8.ofNat (v / 256 ^ i % 256).toNat

theorem getElem?_lowBytes (v : Int) (below : i < n) : (lowBytes n v)[i]? = some (digit v i) := by
  induction n generalizing v i with
  | zero => omega
  | succ n ih =>
      rw [lowBytes]
      cases i with
      | zero => simp [digit]
      | succ i =>
          have shifted : v / 256 / 256 ^ i = v / 256 ^ (i + 1) := by
            rw [Int.ediv_ediv_of_nonneg (by decide), Int.pow_succ, Int.mul_comm]
          rw [List.getElem?_cons_succ, ih (v / 256) (by omega), digit, shifted, digit]

/-- From a size that an integer fits on, its digits show its sign. -/
theorem digit_eq_sign (low : -256 ^ n ≤ v) (high : v < 256 ^ n) (above : n ≤ i) :
    digit v i = if v < 0 then 0xFF else 0 := by
  have grows : (256 : Int) ^ n ≤ 256 ^ i := by
    have powers : 256 ^ n ≤ 256 ^ i := Nat.pow_le_pow_right (by decide) above
    exact_mod_cast powers
  by_cases negative : v < 0
  · have quotient : v / 256 ^ i = -1 := by
      apply (Int.ediv_eq_iff_of_pos (Int.pow_pos (by decide))).2
      omega
    rw [digit, quotient, if_pos negative]
    rfl
  · have quotient : v / 256 ^ i = 0 := Int.ediv_eq_zero_of_lt (by omega) (by omega)
    rw [digit, quotient, if_neg negative]
    rfl

end Digits

/-- The byte of an integer at a place in memory order, counted from the least significant one. -/
def Endian.digit? (e : Endian) (data : List AbsByte) (i : Nat) : Option AbsByte :=
  match e with
  | .little => data[i]?
  | .big => data.reverse[i]?

theorem Endian.digit?_ofData (e : Endian) (ds : List UInt8) (i : Nat) :
    e.digit? (AbsByte.ofData (e.arrange ds) none) i = ds[i]?.map (AbsByte.init · none) := by
  cases e with
  | little => simp [digit?, arrange, AbsByte.ofData]
  | big => simp [digit?, arrange, AbsByte.ofData, ← List.map_reverse]

/-! ## Residues -/

namespace IntTy

variable {target : Target} {s t u : IntTy} {v w : Int}

theorem modulus_eq_pow (sized : 1 ≤ t.size) : t.modulus = 256 ^ t.size.toNat := by
  rw [modulus, (bits_toNat sized).1, Int.pow_mul]
  rfl

/-- An integer of a type lies within the modulus of zero. -/
theorem between_of_canRepresent (sized : 1 ≤ t.size) (h : t.canRepresent v = .ok true) :
    -256 ^ t.size.toNat ≤ v ∧ v < 256 ^ t.size.toNat := by
  have width := high_sub_low sized
  have low := t.low_le_zero
  have high := t.zero_le_high
  rw [canRepresent_iff sized] at h
  rw [modulus_eq_pow sized] at width
  omega

/-- A smaller type tells apart what a larger one does, at most. -/
theorem modulus_dvd (sized : 1 ≤ u.size) (le : u.size ≤ t.size) : u.modulus ∣ t.modulus := by
  rw [modulus_eq_pow sized, modulus_eq_pow (by omega)]
  exact pow_dvd_pow 256 (by omega)

/-- Wrapping looks at the residue alone. -/
theorem wrap_congr (sized : 1 ≤ t.size) (h : v ≡ w [ZMOD t.modulus]) : t.wrap v = t.wrap w := by
  simp only [wrap_eq sized, ← modulus_eq sized, h.eq]

/-- The digits that a type has room for are those of the residue. -/
theorem lowBytes_congr (sized : 1 ≤ t.size) (h : v ≡ w [ZMOD t.modulus]) :
    lowBytes t.size.toNat v = lowBytes t.size.toNat w := by
  rwa [lowBytes_eq_iff, ← one_shiftLeft_eq_pow, ← modulus_eq sized]

/-- The bytes of an integer of a type are its digits. -/
theorem encode_eq_ofData (h : t.canRepresent v = .ok true) :
    (Ty.int t).encode target (.int v) =
      .ok (AbsByte.ofData (target.endian.arrange (lowBytes t.size.toNat v)) none) := by
  obtain ⟨nonneg, -, fits⟩ := canRepresent_eq_true_iff.1 h
  have bytes := Endian.encode_eq_ok_iff (e := target.endian).2 ⟨nonneg, fits, rfl⟩
  simp only [Ty.encode, Ty.wellFormed, h, Ty.bytes, bytes]
  rfl

/-- The digits of an integer of a type stand for it. -/
theorem decode_eq_of_canRepresent (target : Target) (sized : 1 ≤ t.size)
    (h : t.canRepresent v = .ok true) :
    (Ty.int t).decode target
      (AbsByte.ofData (target.endian.arrange (lowBytes t.size.toNat v)) none) =
        .ok (some (.int v)) := by
  obtain ⟨nonneg, -, fits⟩ := canRepresent_eq_true_iff.1 h
  have bytes := Endian.encode_eq_ok_iff (e := target.endian).2 ⟨nonneg, fits, rfl⟩
  have full : ((lowBytes t.size.toNat v).length : Int) = t.size := by
    rw [length_lowBytes]
    omega
  rw [Ty.decode, if_neg (by simpa [Ty.byteSize] using full)]
  simp only [decode_ofData bytes fun _ => sized, Option.map_some]

/-! ## Resizing -/

/-- The bytes of an integer at one type and of an integer at another one are the same, up to the
length: those that both have agree, and further ones show the sign of the first integer. -/
structure Resized (target : Target) (s t : IntTy) (v w : Int) (before after : List AbsByte) :
    Prop where
  spelled : (Ty.int s).encode target (.int v) = .ok before
  respelled : (Ty.int t).encode target (.int w) = .ok after
  length_before : (before.length : Int) = s.size
  length_after : (after.length : Int) = t.size
  kept : ∀ i : Nat, i < s.size → i < t.size →
    target.endian.digit? after i = target.endian.digit? before i
  further : ∀ i : Nat, s.size ≤ i → i < t.size →
    target.endian.digit? after i = some (.init (if v < 0 then 0xFF else 0) none)

/-- Wrapping an integer at another type resizes its bytes. -/
theorem exists_resized (target : Target) (source : 1 ≤ s.size) (sized : 1 ≤ t.size)
    (hv : s.canRepresent v = .ok true) (hw : t.wrap v = .ok w) :
    ∃ before after, Resized target s t v w before after := by
  have fits := canRepresent_of_wrap sized hw
  have same := lowBytes_congr sized (modEq_of_wrap sized hw)
  have digitOf (t : IntTy) {i : Nat} (below : i < t.size) :
      target.endian.digit?
        (AbsByte.ofData (target.endian.arrange (lowBytes t.size.toNat v)) none) i =
          some (.init (digit v i) none) := by
    rw [Endian.digit?_ofData, getElem?_lowBytes v (by omega), Option.map_some]
  refine ⟨_, _, encode_eq_ofData hv, encode_eq_ofData fits, ?_, ?_, ?_, ?_⟩
  · simp only [AbsByte.length_ofData, Endian.length_arrange, length_lowBytes]
    omega
  · simp only [AbsByte.length_ofData, Endian.length_arrange, length_lowBytes]
    omega
  · -- both spell the residue of `v`, as far as both go
    intro i insideS insideT
    rw [same, digitOf t insideT, digitOf s insideS]
  · intro i outside inside
    obtain ⟨low, high⟩ := between_of_canRepresent source hv
    rw [same, digitOf t inside, digit_eq_sign low high (by omega)]

/-- Reading the bytes at a type of the same size gives what wrapping gives. -/
theorem transmute_eq_wrap (source : 1 ≤ s.size) (same : s.size = t.size)
    (hv : s.canRepresent v = .ok true) (hw : t.wrap v = .ok w) :
    (Value.int v).transmute target (.int s) (.int t) = .ok (.int w) := by
  have sized : 1 ≤ t.size := by omega
  have fits := canRepresent_of_wrap sized hw
  have read := decode_eq_of_canRepresent target sized fits
  rw [lowBytes_congr sized (modEq_of_wrap sized hw), ← same] at read
  rw [Value.transmute, encode_eq_ofData hv]
  simp only [Ty.byteSize, same, beq_self_eq_true]
  show Except.bind ((Ty.int t).decode target _) _ = _
  rw [← same, read]
  rfl

/-- Wrapping at a larger type first changes nothing. -/
theorem wrap_of_wrap (inner : 1 ≤ u.size) (le : u.size ≤ t.size) (hw : t.wrap v = .ok w) :
    u.wrap w = u.wrap v :=
  wrap_congr inner ((modEq_of_wrap (by omega) hw).of_dvd (modulus_dvd inner le))

end IntTy

/-! ## Casts of a machine -/

namespace Machine

theorem evalUnary_cast (m : Machine) (s t : IntTy) (v : Int) :
    evalUnary (.cast t) (.int v) (.int s) m = ((t.wrap v).map fun w => (.int w, .int t), m) :=
  Action.ofExcept_bind_pure (t.wrap v) (fun w => (Value.int w, Ty.int t)) m

/-- A cast between integer types yields the integer whose bytes are those of the operand, cut off or
drawn out by its sign to the size of the new type. At types of the same size it is a transmute, which
then succeeds; and a cast through a type that is not smaller than the last one is a cast to the last
one. All of this leaves the machine as it is. -/
theorem cast_resizes (m : Machine) {s t : IntTy} (source : 1 ≤ s.size) (sized : 1 ≤ t.size) {v : Int}
    (fits : s.canRepresent v = .ok true) :
    ∃ w before after,
      evalUnary (.cast t) (.int v) (.int s) m = (.ok (.int w, .int t), m) ∧
      IntTy.Resized m.target s t v w before after ∧
      (s.size = t.size →
        evalUnary (.transmute (.int t)) (.int v) (.int s) m = (.ok (.int w, .int t), m)) ∧
      ∀ u : IntTy, 1 ≤ u.size → u.size ≤ t.size → ∃ x,
        evalUnary (.cast u) (.int v) (.int s) m = (.ok (.int x, .int u), m) ∧
        evalUnary (.cast u) (.int w) (.int t) m = (.ok (.int x, .int u), m) := by
  obtain ⟨w, hw⟩ := IntTy.exists_wrap sized v
  obtain ⟨before, after, resized⟩ := IntTy.exists_resized m.target source sized fits hw
  refine ⟨w, before, after, ?_, resized, ?_, ?_⟩
  · rw [evalUnary_cast, hw]
    rfl
  · intro same
    rw [evalUnary_transmute, IntTy.transmute_eq_wrap source same fits hw]
    rfl
  · intro u inner le
    obtain ⟨x, hx⟩ := IntTy.exists_wrap inner v
    refine ⟨x, ?_, ?_⟩
    · rw [evalUnary_cast, hx]
      rfl
    · rw [evalUnary_cast, IntTy.wrap_of_wrap inner le hw, hx]
      rfl

/-- A byte with a sign is drawn out to two bytes without one, on a big-endian machine. -/
theorem cast_resizes_signedByte :
    let m := fresh {} ⟨8, .big⟩ (fun _ _ => .ok 0) .standard
    let byte : IntTy := ⟨true, 1⟩
    let word : IntTy := ⟨false, 2⟩
    byte.canRepresent (-2) = .ok true ∧
      evalUnary (.cast word) (.int (-2)) (.int byte) m = (.ok (.int 65534, .int word), m) ∧
      ∃ before after, IntTy.Resized ⟨8, .big⟩ byte word (-2) 65534 before after := by
  intro m byte word
  obtain ⟨w, before, after, cast, resized, -⟩ :=
    cast_resizes m (s := byte) (t := word) (v := -2) (by decide) (by decide) rfl
  have computed : evalUnary (.cast word) (.int (-2)) (.int byte) m =
      (.ok (.int 65534, .int word), m) := by
    have wrapped : word.wrap (-2) = .ok 65534 := by
      rw [IntTy.wrap_eq (by decide)]
      exact congrArg Except.ok (by decide)
    rw [evalUnary_cast, wrapped]
    rfl
  rw [computed] at cast
  cases cast
  exact ⟨rfl, computed, before, after, resized⟩

end Machine

end AbstractMachine
