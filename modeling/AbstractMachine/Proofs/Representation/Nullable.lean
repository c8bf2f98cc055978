/-
# AbstractMachine.Proofs.Representation.Nullable — a pointer that may be absent

The smallest enum whose variants overlap: a safe pointer, or none. Null is no address of a safe
pointer, so it marks the variant without one, and an enum of two variants takes no more bytes than
the pointer. The tag of the empty variant stands where the pointer of the other one does, and the
other one has no tag at all.

The decision tree reads the address (`decode_nullable_iff`). That it finds what was written rests on
what well-formed pointers are, and not on the layout alone.
-/
import AbstractMachine.Layout
import AbstractMachine.Proofs.Discriminant
import AbstractMachine.Proofs.Representation.Encoding

namespace AbstractMachine

open Slice AbsByte

/-- A pointer of the given type, or null for none. -/
def EnumTy.nullable (target : Target) (t : PtrTy) : EnumTy where
  variants :=
    [{ ty := .tuple [] target.ptrSize, tagger := [⟨0, .usize target, 0⟩] },
     { ty := .tuple [⟨0, .ptr t⟩] target.ptrSize, tagger := [] }]
  discriminator := .branch 0 (.usize target) [⟨0, 1, .known 0⟩] (.known 1)
  discriminantTy := .int (.isize target)
  size := target.ptrSize

/-- A shared reference to four bytes, or null. -/
def Ty.optionRef (target : Target) : Ty :=
  .enum (.nullable target (.ref false { size := 4, align := 4 }))

/-- The value without a pointer. -/
def Value.null : Value := .variant 0 (.tuple [])

/-- The value with a pointer. -/
def Value.nonnull (p : Pointer) : Value := .variant 1 (.tuple [.ptr p])

namespace Ty

variable {target : Target} {t : PtrTy}

/-- A nullable pointer is made of three types besides itself. -/
theorem every_nullable {P : Ty → Prop} (here : P (.enum (.nullable target t)))
    (empty : P (.tuple [] target.ptrSize)) (full : P (.tuple [⟨0, .ptr t⟩] target.ptrSize))
    (ptr : P (.ptr t)) : (Ty.enum (.nullable target t)).Every P := by
  refine .intro here ?_
  intro c hc
  simp only [components, EnumTy.nullable, List.map_cons, List.map_nil, List.mem_cons,
    List.not_mem_nil, or_false] at hc
  rcases hc with rfl | rfl
  · exact .intro empty (by simp [components])
  · refine .intro full ?_
    intro c hc
    obtain rfl : c = .ptr t := by simpa [components] using hc
    exact .intro ptr (by simp [components])

/-- The decision tree tells null from all other addresses. -/
theorem decode_nullable_iff {data : List AbsByte} {d : Int}
    (size : (data.length : Int) = target.ptrSize) :
    (EnumTy.nullable target t).discriminator.decode target data = some d ↔
      ∃ n, (IntTy.usize target).decode target data = some n ∧ d = if n = 0 then 0 else 1 := by
  have all : Slice.read data 0 (0 + (IntTy.usize target).size) = data := read_of_length_eq size
  have child (n : Int) :
      (Discriminator.childFor [⟨0, 1, .known 0⟩] (.known 1) n).decode target data =
        some (if n = 0 then 0 else 1) := by
    by_cases zero : n = 0
    · rw [zero]
      rfl
    · have other : ¬ (0 ≤ n ∧ n < 1) := by omega
      simp [Discriminator.childFor, other, zero, Discriminator.decode]
  simp only [EnumTy.nullable, Discriminator.decode_branch, all, child, Option.bind_eq_some_iff,
    Option.some.injEq, @eq_comm _ _ d]

/-- The tag of the empty variant makes every byte a zero. -/
theorem writeTag_null {bytes tagged : List AbsByte} (size : (bytes.length : Int) = target.ptrSize)
    (h : writeTag target [⟨0, .usize target, 0⟩] bytes = .ok tagged) :
    ∃ ds, target.endian.encode 0 target.ptrSize false = .ok ds ∧ tagged = ofData ds none := by
  obtain ⟨_, _ | ⟨⟨start, ds, hds, content⟩, _ | _⟩, rfl⟩ := writeTag_eq_ok_iff.1 h
  refine ⟨ds, hds, ?_⟩
  have length : (ds.length : Int) = target.ptrSize := Endian.length_of_encode hds
  rw [overlayAll_cons, overlayAll_nil, start, content]
  refine overlay_of_length_eq ?_
  rw [length_ofData]
  omega

/-- The payload with a pointer has the bytes of the pointer. -/
theorem bytes_nonnull {payload : Value} {bytes : List AbsByte}
    (wf : (Ty.tuple [⟨0, .ptr t⟩] target.ptrSize).wellFormed target payload = .ok true)
    (h : (Ty.tuple [⟨0, .ptr t⟩] target.ptrSize).bytes target payload = .ok bytes) :
    ∃ p ds, t.validAddr p.addr = .ok true ∧ payload = .tuple [.ptr p] ∧
      target.endian.encode p.addr target.ptrSize false = .ok ds ∧
      bytes = ofData ds p.provenance := by
  obtain ⟨_, rfl, _ | ⟨wfv, _ | _⟩⟩ := wellFormed_tuple_iff.1 wf
  obtain ⟨p, rfl, _, valid⟩ := wellFormed_ptr_iff.1 wfv
  obtain ⟨_, _ | ⟨hv, _ | _⟩, rfl⟩ := (bytes_tuple_iff rfl).1 h
  obtain ⟨ds, hds, rfl⟩ := bytes_ptr_iff.1 hv
  refine ⟨p, ds, valid, rfl, hds, ?_⟩
  have length := Endian.length_of_encode hds
  rw [overlayAll_cons, overlayAll_nil]
  refine overlay_of_length_eq ?_
  rw [length_ofData, length_blank]
  omega

/-- Null is no address of a safe pointer. -/
theorem ne_zero_of_validAddr {pointee : Pointee} {addr : Int} (safe : t.safePointee = some pointee)
    (valid : t.validAddr addr = .ok true) : addr ≠ 0 := by
  rintro rfl
  simp [PtrTy.validAddr, safe, Pointee.validAddr] at valid

/-! ## The layout -/

theorem tagsFit_nullable (width : 1 ≤ target.ptrSize) :
    (Ty.enum (.nullable target t)).TagsFit := by
  have fits : (IntTy.usize target).canRepresent 0 = .ok true := by
    rw [← Target.addrInBounds, Target.addrInBounds_eq width]
    simp [target.limit_pos]
  simpa [TagsFit, EnumTy.nullable] using fits

theorem variantsNamed_nullable : (Ty.enum (.nullable target t)).VariantsNamed := by
  rintro d (_ | ⟨hb, leaf⟩ | leaf)
  · obtain rfl := List.mem_singleton.1 hb
    cases leaf
    simp [EnumTy.nullable]
  · cases leaf
    simp [EnumTy.nullable]

/-- The tree finds either variant in its bytes. -/
theorem tagsRead_nullable {pointee : Pointee} (width : 1 ≤ target.ptrSize)
    (safe : t.safePointee = some pointee) :
    (Ty.enum (.nullable target t)).TagsRead target := by
  intro n v payload bytes tagged hv wf encoded tag
  have hbytes := (encode_eq_ok_iff.1 encoded).2
  match n, hv with
  | 0, hv =>
      obtain rfl := Option.some.inj hv
      obtain ⟨_, rfl, _ | _⟩ := wellFormed_tuple_iff.1 wf
      obtain ⟨_, _ | _, rfl⟩ := (bytes_tuple_iff rfl).1 hbytes
      have blank : ((blank target.ptrSize).length : Int) = target.ptrSize :=
        length_blank_of_nonneg (by omega)
      obtain ⟨ds, hds, rfl⟩ := writeTag_null blank tag
      have zero := IntTy.decode_ofData (t := .usize target) (p := none) hds (by simp [IntTy.usize])
      rw [decode_nullable_iff (by rw [length_ofData, Endian.length_of_encode hds])]
      exact ⟨0, zero, rfl⟩
  | 1, hv =>
      obtain rfl := Option.some.inj hv
      obtain ⟨p, ds, valid, rfl, hds, rfl⟩ := bytes_nonnull wf hbytes
      obtain rfl := Except.ok.inj tag
      have addr := IntTy.decode_ofData (t := .usize target) (p := p.provenance) hds (by simp [IntTy.usize])
      rw [decode_nullable_iff (by rw [length_ofData, Endian.length_of_encode hds])]
      refine ⟨p.addr, addr, ?_⟩
      rw [if_neg (ne_zero_of_validAddr safe valid)]
      rfl

theorem tagsInside_nullable : (Ty.enum (.nullable target t)).TagsInside := by
  simp [TagsInside, EnumTy.nullable, TagWrite.extent, Chunk.inside_iff, IntTy.usize]

theorem fieldsInside_nullable : (Ty.tuple [⟨0, .ptr t⟩] target.ptrSize).FieldsInside target := by
  simp [FieldsInside, Field.extent, Chunk.inside_iff, byteSize]

/-- Where the tree finds the empty variant, the bytes are those of null. -/
theorem tagsReflected_nullable : (Ty.enum (.nullable target t)).TagsReflected target := by
  refine tagsReflected_of_forall tagsInside_nullable ?_
  intro n v data size found hv w hw ds hds
  replace size : (data.length : Int) = target.ptrSize := size
  obtain ⟨addr, read, same⟩ := (decode_nullable_iff size).1 found
  match n, hv with
  | 0, hv =>
      obtain rfl := Option.some.inj hv
      obtain rfl := List.mem_singleton.1 hw
      have zero : addr = 0 := by
        by_contra other
        rw [if_neg other] at same
        omega
      obtain ⟨es, hes, below⟩ := IntTy.encode_of_decode (zero ▸ read)
      obtain rfl := Except.ok.inj (hes.symm.trans hds)
      show leAll (ofData es none) (Slice.read data 0 (0 + target.ptrSize)) = true
      rwa [read_of_length_eq size]
  | 1, hv =>
      obtain rfl := Option.some.inj hv
      simp at hw

/-- A nullable pointer is laid out soundly, though its variants share all of their bytes. -/
theorem sound_nullable {pointee : Pointee} (width : 1 ≤ target.ptrSize)
    (safe : t.safePointee = some pointee) :
    (Ty.enum (.nullable target t)).Every (Sound target) := by
  have nonneg : 0 ≤ target.ptrSize := by omega
  refine every_nullable (sound_enum_iff.2 ⟨?_, ?_, ?_, ?_, tagsRead_nullable width safe⟩)
    (sound_tuple_iff.2 ⟨nonneg, ?_, ?_⟩) (sound_tuple_iff.2 ⟨nonneg, ?_, ?_⟩) sound_ptr
  · simp [PayloadsFill, EnumTy.nullable, byteSize]
  · exact tagsInside_nullable
  · exact tagsFit_nullable width
  · -- Only the empty variant has a tag, and its payload covers nothing.
    intro v hv w hw i _ covered
    simp only [EnumTy.nullable, List.mem_cons, List.not_mem_nil, or_false] at hv
    rcases hv with rfl | rfl
    · obtain ⟨⟩ | ⟨⟩ | ⟨⟩ | ⟨hf, _⟩ := covered
      simp at hf
    · simp at hw
  · simp [FieldsInside]
  · simp [FieldsApart]
  · exact fieldsInside_nullable
  · simp [FieldsApart]

theorem coherent_nullable (width : 1 ≤ target.ptrSize) :
    (Ty.enum (.nullable target t)).Every (Coherent target) := by
  refine every_nullable ?_ ?_ ?_ coherent_ptr
  · exact coherent_enum_iff.2 ⟨tagsFit_nullable width, tagsInside_nullable, tagsReflected_nullable⟩
  · exact coherent_tuple_iff.2 (by simp [FieldsInside])
  · exact coherent_tuple_iff.2 fieldsInside_nullable

end Ty

end AbstractMachine
