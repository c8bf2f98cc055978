/-
# AbstractMachine.Proofs.Representation.Scalars — integers, booleans and pointers in bytes

A scalar needs all of its bytes initialised, and looks at nothing else in them but their bits; a
pointer also looks at whether its bytes agree on a provenance. More defined bytes have the same bits,
and bytes that agree on a provenance agree on it still when they become more defined. Going down, an
agreement can be lost, and then the pointer loses its provenance with it.
-/
import AbstractMachine.Representation.Decode
import AbstractMachine.Proofs.Codec
import AbstractMachine.Proofs.Definedness

namespace AbstractMachine

open AbsByte

variable {target : Target} {xs ys : List AbsByte}

/-! ## Integers and booleans -/

namespace IntTy

variable {t : IntTy} {n : Int}

theorem decode_eq_some_iff :
    t.decode target xs = some n ↔ (xs.length : Int) = t.size ∧
      ∃ ds, allData? xs = some ds ∧ target.endian.decode ds t.signed = n := by
  unfold IntTy.decode
  split <;> simp_all

/-- Initialised bytes of the right number stand for an integer. -/
theorem decode_ofData {ds : List UInt8} {p : Option AllocId}
    (h : target.endian.encode n t.size t.signed = .ok ds) (sign : t.signed = true → 1 ≤ t.size) :
    t.decode target (ofData ds p) = some n := by
  rw [decode_eq_some_iff]
  refine ⟨?_, ds, allData?_ofData ds p, Endian.decode_encode h sign⟩
  rw [length_ofData, Endian.length_of_encode h]

theorem decode_of_leAll (le : leAll xs ys = true) (h : t.decode target xs = some n) :
    t.decode target ys = some n := by
  rw [decode_eq_some_iff] at h ⊢
  obtain ⟨size, ds, init, value⟩ := h
  exact ⟨by rw [← length_eq_of_leAll le, size], ds, allData?_of_leAll le init, value⟩

/-- An integer in the range of a type has bytes at it. -/
theorem exists_encode (target : Target) (h : t.canRepresent n = .ok true) :
    ∃ ds, target.endian.encode n t.size t.signed = .ok ds := by
  obtain ⟨nonneg, _, fits⟩ := canRepresent_eq_true_iff.1 h
  exact ⟨_, Endian.encode_eq_ok_iff.2 ⟨nonneg, fits, rfl⟩⟩

/-- The bytes of an integer that was read stand for it, without the provenance. -/
theorem encode_of_decode (h : t.decode target xs = some n) :
    ∃ ds, target.endian.encode n t.size t.signed = .ok ds ∧ leAll (ofData ds none) xs = true := by
  obtain ⟨size, ds, init, rfl⟩ := decode_eq_some_iff.1 h
  have same := length_of_allData? init
  refine ⟨ds, ?_, leAll_ofData_of_allData? init fun _ _ => provenanceLe_none _⟩
  have again := Endian.encode_decode target.endian ds t.signed
  rwa [same, size] at again

/-- What is read at a type with at least one byte lies in its range. -/
theorem canRepresent_of_decode (sized : 1 ≤ t.size) (h : t.decode target xs = some n) :
    t.canRepresent n = .ok true := by
  obtain ⟨size, ds, init, rfl⟩ := decode_eq_some_iff.1 h
  have same : t.size.toNat = ds.length := by
    rw [length_of_allData? init]
    omega
  rw [canRepresent_eq_true_iff, same]
  exact ⟨by omega, fun _ => sized, Endian.fitsBytes_decode target.endian ds t.signed⟩

end IntTy

theorem decodeBool_eq_some_iff {b : Bool} :
    decodeBool xs = some b ↔ ∃ p, xs = [.init (if b then 1 else 0) p] := by
  unfold decodeBool
  split
  · cases b <;> simp
  · cases b <;> simp
  · next zero one =>
    constructor
    · simp
    · rintro ⟨p, rfl⟩
      cases b with
      | false => exact absurd rfl (zero p)
      | true => exact absurd rfl (one p)

theorem decodeBool_of_leAll {b : Bool} (le : leAll xs ys = true) (h : decodeBool xs = some b) :
    decodeBool ys = some b := by
  obtain ⟨p, rfl⟩ := decodeBool_eq_some_iff.1 h
  obtain ⟨y, rfl⟩ := List.length_eq_one_iff.1 (length_eq_of_leAll le).symm
  cases y with
  | uninit => simp [leAll, AbsByte.le] at le
  | init d q =>
      simp only [leAll, AbsByte.le, Bool.and_true, Bool.and_eq_true, beq_iff_eq] at le
      rw [← le.1]
      exact decodeBool_eq_some_iff.2 ⟨q, rfl⟩

/-- The byte of a boolean that was read stands for it, without the provenance. -/
theorem leAll_of_decodeBool {b : Bool} (h : decodeBool xs = some b) :
    leAll [.init (if b then 1 else 0) none] xs = true := by
  obtain ⟨p, rfl⟩ := decodeBool_eq_some_iff.1 h
  simp [leAll, AbsByte.le]

/-! ## The provenance that bytes agree on -/

theorem commonProvenance_eq_some_iff {p : AllocId} :
    commonProvenance xs = some p ↔ xs ≠ [] ∧ ∀ x ∈ xs, x.provenance? = some p := by
  cases xs with
  | nil => simp [commonProvenance]
  | cons x xs =>
      simp only [commonProvenance, List.map_cons, ne_eq, reduceCtorEq, not_false_eq_true, true_and,
        List.forall_mem_cons]
      constructor
      · intro h
        split at h
        · next all =>
          simp only [List.all_map, List.all_eq_true, Function.comp_apply, beq_iff_eq] at all
          exact ⟨h, fun y hy => (all y hy).trans h⟩
        · simp at h
      · rintro ⟨head, tail⟩
        rw [head, if_pos]
        simpa [List.all_eq_true] using tail

/-- What bytes agree on is below the provenance of each of them. -/
theorem commonProvenance_le {x : AbsByte} (hx : x ∈ xs) :
    provenanceLe (commonProvenance xs) x.provenance? = true := by
  cases common : commonProvenance xs with
  | none => rfl
  | some p => rw [(commonProvenance_eq_some_iff.1 common).2 x hx, provenanceLe_refl]

/-- More defined bytes agree on what less defined ones agree on. -/
theorem commonProvenance_of_leAll (le : leAll xs ys = true) :
    provenanceLe (commonProvenance xs) (commonProvenance ys) = true := by
  cases common : commonProvenance xs with
  | none => rfl
  | some p =>
      obtain ⟨nonempty, all⟩ := commonProvenance_eq_some_iff.1 common
      have agreed : commonProvenance ys = some p := by
        rw [commonProvenance_eq_some_iff]
        refine ⟨fun empty => nonempty ?_, fun y hy => ?_⟩
        · have same := length_eq_of_leAll le
          rw [empty] at same
          exact List.length_eq_zero_iff.1 same
        · obtain ⟨i, hi⟩ := List.mem_iff_getElem?.1 hy
          obtain ⟨same, each⟩ := leAll_iff_getElem?.1 le
          have bound : i < xs.length := by
            rw [same]
            exact (List.getElem?_eq_some_iff.1 hi).1
          have below := each i xs[i] y (List.getElem?_eq_getElem bound) hi
          have here := all xs[i] (List.getElem_mem bound)
          -- A byte with a provenance is initialised, and what is above it has the same one.
          cases hx : xs[i] with
          | uninit => simp [hx, provenance?] at here
          | init d q =>
              cases y with
              | uninit => simp [hx, AbsByte.le] at below
              | init e r =>
                  simp only [hx, provenance?, AbsByte.le, Bool.and_eq_true,
                    provenanceLe_iff] at here below ⊢
                  simp_all
      rw [agreed, provenanceLe_refl]

theorem commonProvenance_ofData {ds : List UInt8} (nonempty : ds ≠ []) (p : Option AllocId) :
    commonProvenance (ofData ds p) = p := by
  cases ds with
  | nil => exact absurd rfl nonempty
  | cons d ds => simp [commonProvenance, ofData, provenance?]

/-! ## Pointers -/

namespace PtrTy

variable {t : PtrTy} {p : Pointer}

theorem decode_eq_some_iff :
    t.decode target xs = .ok (some p) ↔ ∃ ds, allData? xs = some ds ∧
      t.validAddr (target.endian.decode ds false) = .ok true ∧
      p = { addr := target.endian.decode ds false, provenance := commonProvenance xs } := by
  unfold PtrTy.decode
  cases allData? xs with
  | none => simp
  | some ds =>
      simp only [Option.some.injEq, exists_eq_left']
      cases t.validAddr (target.endian.decode ds false) with
      | error e => simp
      | ok b => cases b <;> simp [eq_comm]

theorem decode_of_leAll (le : leAll xs ys = true) (h : t.decode target xs = .ok (some p)) :
    ∃ q, t.decode target ys = .ok (some q) ∧ p.addr = q.addr ∧
      provenanceLe p.provenance q.provenance = true := by
  obtain ⟨ds, init, valid, rfl⟩ := decode_eq_some_iff.1 h
  refine ⟨_, decode_eq_some_iff.2 ⟨ds, allData?_of_leAll le init, valid, rfl⟩, rfl, ?_⟩
  exact commonProvenance_of_leAll le

/-- The bytes of a pointer carry its address there and back, and if there are any, its provenance. -/
theorem decode_ofData {ds : List UInt8}
    (h : target.endian.encode p.addr target.ptrSize false = .ok ds)
    (valid : t.validAddr p.addr = .ok true) :
    ∃ q, t.decode target (ofData ds p.provenance) = .ok (some q) ∧ q.addr = p.addr ∧
      provenanceLe q.provenance p.provenance = true ∧ (1 ≤ target.ptrSize → q = p) := by
  have addr : target.endian.decode ds false = p.addr := Endian.decode_encode h (by simp)
  refine ⟨⟨p.addr, commonProvenance (ofData ds p.provenance)⟩, ?_, rfl, ?_, ?_⟩
  · rw [decode_eq_some_iff]
    exact ⟨ds, allData?_ofData ds _, by rwa [addr], by rw [addr]⟩
  · cases ds with
    | nil => exact provenanceLe_none _
    | cons d ds => rw [commonProvenance_ofData (List.cons_ne_nil d ds), provenanceLe_refl]
  · intro width
    have nonempty : ds ≠ [] := by
      rintro rfl
      have same := Endian.length_of_encode h
      simp only [List.length_nil] at same
      omega
    rw [commonProvenance_ofData nonempty]

/-- The bytes of a pointer that was read are at most as defined as those it was read from. -/
theorem encode_of_decode (size : (xs.length : Int) = target.ptrSize)
    (h : t.decode target xs = .ok (some p)) :
    ∃ ds, target.endian.encode p.addr target.ptrSize false = .ok ds ∧
      leAll (ofData ds p.provenance) xs = true := by
  obtain ⟨ds, init, _, rfl⟩ := decode_eq_some_iff.1 h
  have same := length_of_allData? init
  refine ⟨ds, ?_, leAll_ofData_of_allData? init fun x hx => commonProvenance_le hx⟩
  have again := Endian.encode_decode target.endian ds false
  rwa [same, size] at again

/-- What is read at a pointer type is an address that the type allows. -/
theorem wellFormed_of_decode (size : (xs.length : Int) = target.ptrSize)
    (h : t.decode target xs = .ok (some p)) :
    target.addrInBounds p.addr = .ok true ∧ t.validAddr p.addr = .ok true := by
  obtain ⟨ds, init, valid, rfl⟩ := decode_eq_some_iff.1 h
  refine ⟨?_, valid⟩
  have same : target.ptrSize.toNat = ds.length := by
    rw [length_of_allData? init]
    omega
  rw [Target.addrInBounds, IntTy.canRepresent_eq_true_iff]
  refine ⟨by simp only [IntTy.usize]; omega, by simp [IntTy.usize], ?_⟩
  simp only [IntTy.usize, same]
  exact Endian.fitsBytes_decode target.endian ds false

/-- Asking whether a pointee allows an address fails only for an alignment of zero. -/
theorem exists_validAddr (aligned : ∀ q, t.safePointee = some q → 1 ≤ q.align) (addr : Int) :
    ∃ b, t.validAddr addr = .ok b := by
  unfold PtrTy.validAddr
  cases pointee : t.safePointee with
  | none => exact ⟨true, rfl⟩
  | some q =>
      have nonzero : q.align ≠ 0 := by
        have := aligned q pointee
        omega
      simp only [Pointee.validAddr, isAligned_of_ne_zero nonzero]
      split
      · exact ⟨_, rfl⟩
      · exact ⟨false, rfl⟩

theorem exists_decode (aligned : ∀ q, t.safePointee = some q → 1 ≤ q.align) :
    ∃ o, t.decode target xs = .ok o := by
  unfold PtrTy.decode
  cases allData? xs with
  | none => exact ⟨none, rfl⟩
  | some ds =>
      obtain ⟨b, hb⟩ := exists_validAddr aligned (target.endian.decode ds false)
      simp only [hb]
      cases b with
      | false => exact ⟨none, rfl⟩
      | true => exact ⟨_, rfl⟩

end PtrTy

end AbstractMachine
