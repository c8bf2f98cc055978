/-
# AbstractMachine.Proofs.Representation.Validity — what is read is valid

Whether a value is one of its type is decided in three places: decoding refuses bytes that stand for
none, the test of well-formedness refuses values, and inhabitation says of the type alone whether
there are any. They agree on what decoding lets through (`Ty.valid_of_decode`): the type is
inhabited, and the value is well-formed, so that it is never refused on its way back into memory.

No field has to lie inside its tuple, and fields may share bytes. The slice of a field that sticks
out is shorter than the field, and no type reads fewer bytes than it has.
-/
import AbstractMachine.Proofs.Memory.Operations
import AbstractMachine.Proofs.Representation.Reencoding

namespace AbstractMachine

variable {target : Target} {E : Fault → Prop}

namespace Ty

variable {v : Value} {data : List AbsByte}

/-! ## Inhabitation -/

theorem inhabited_tuple_iff {fields : List Field} {size : Int} :
    (Ty.tuple fields size).inhabited = true ↔ ∀ f ∈ fields, f.ty.inhabited = true := by
  rw [Ty.inhabited, allFieldsInhabited_eq, List.all_eq_true]

theorem inhabited_enum_iff {e : EnumTy} :
    (Ty.enum e).inhabited = true ↔ ∃ v ∈ e.variants, v.ty.inhabited = true := by
  obtain ⟨variants, discriminator, discriminantTy, size⟩ := e
  rw [Ty.inhabited, someVariantInhabited_eq, List.any_eq_true]

/-- A type that bytes decode at has a value. -/
theorem inhabited_of_decode {ty : Ty} (arrays : ty.Every Counted)
    (h : ty.decode target data = .ok (some v)) : ty.inhabited = true := by
  induction ty using Ty.induction generalizing v data with
  | bool | int | ptr | union => rfl
  | tuple fields size ih =>
      obtain ⟨_, vs, rfl, all⟩ := decode_tuple_iff.1 h
      refine inhabited_tuple_iff.2 fun f hf => ?_
      obtain ⟨w, -, hw⟩ := exists_of_forall₂ all.flip hf
      exact ih f hf (arrays.field hf) hw
  | array elem count ih =>
      obtain ⟨_, vs, rfl, all⟩ := decode_array_iff.1 h
      have counted : 0 ≤ count := arrays.here
      rw [Ty.inhabited, Bool.or_eq_true, beq_iff_eq]
      by_cases empty : count = 0
      · exact Or.inl empty
      · -- an array with elements has a first one, which was read
        have first : vs.length = count.toNat := by
          rw [← all.length_eq, elementRanges, List.length_map, List.length_range]
        obtain ⟨w, hw⟩ := List.exists_mem_of_length_pos (show 0 < vs.length by omega)
        obtain ⟨bs, -, hbs⟩ := exists_of_forall₂ all hw
        exact Or.inr (ih arrays.elem hbs)
  | enum e ih _ =>
      obtain ⟨_, n, var, payload, -, hvar, hpayload, rfl⟩ := decode_enum_iff.1 h
      have mem := List.mem_of_getElem? hvar
      exact inhabited_enum_iff.2 ⟨var, mem, ih var mem (arrays.payload mem) hpayload⟩

end Ty

/-! ## Writing what is valid -/

theorem failsIn_fieldBytes_of_forall₂ {fields : List Field} {vs : List Value}
    (each : List.Forall₂ (fun (f : Field) v => FailsIn E (f.ty.bytes target v)) fields vs)
    (buffer : List AbsByte) : FailsIn E (fieldBytes target fields vs buffer) := by
  induction each generalizing buffer with
  | nil => exact .ok _
  | @cons f v _ _ head _ ih =>
      obtain ⟨offset, ty⟩ := f
      rw [fieldBytes]
      exact .bind head fun _ _ => ih _

/-- Writing a value of the type fails as writing integers does, and in no other way. -/
theorem Ty.failsIn_bytes_of_wellFormed {ty : Ty} {v : Value}
    (codec : ∀ n size signed, FailsIn E (target.endian.encode n size signed))
    (wf : ty.wellFormed target v = .ok true) : FailsIn E (ty.bytes target v) := by
  induction ty using Ty.induction generalizing v with
  | bool =>
      obtain ⟨b, rfl⟩ := wellFormed_bool_iff.1 wf
      exact .ok _
  | int t =>
      obtain ⟨n, rfl, -⟩ := wellFormed_int_iff.1 wf
      exact .bind (codec _ _ _) fun _ _ => .pure _
  | ptr t =>
      obtain ⟨p, rfl, -⟩ := wellFormed_ptr_iff.1 wf
      exact .bind (codec _ _ _) fun _ _ => .pure _
  | tuple fields size ih =>
      obtain ⟨vs, rfl, all⟩ := wellFormed_tuple_iff.1 wf
      refine failsIn_fieldBytes_of_forall₂ ((forall₂_mem all).imp ?_) _
      intro f v ⟨hf, hv⟩
      exact ih f hf hv
  | array elem count ih =>
      obtain ⟨vs, rfl, -, all⟩ := wellFormed_array_iff.1 wf
      exact .concatOk fun v hv => ih (all v hv)
  | union u _ =>
      obtain ⟨bss, rfl, -⟩ := wellFormed_union_iff.1 wf
      exact .ok _
  | enum e ih _ =>
      obtain ⟨n, var, payload, rfl, hvar, hpayload⟩ := wellFormed_enum_iff.1 wf
      obtain ⟨variants, discriminator, discriminantTy, size⟩ := e
      rw [Ty.bytes, variantBytes_eq hvar]
      refine .bind (ih var (List.mem_of_getElem? hvar) hpayload) fun _ _ => ?_
      exact .writeTag (fun w _ n => codec n _ _) _

/-- The faults that say nothing of a value: it is not called ill-formed, and not refused either. -/
def Fault.SparesValues : Fault → Prop
  | .defect (.illFormed _ _) | .undefined (.invalidStore _) => False
  | _ => True

theorem failsIn_encodeInt_spares (e : Endian) (n size : Int) (signed : Bool) :
    FailsIn Fault.SparesValues (e.encode n size signed) :=
  .ite (.error trivial) (.ite (.ok _) (.error trivial))

/-- A well-formed value is never called ill-formed. -/
theorem Ty.failsIn_encode_of_wellFormed {ty : Ty} {v : Value}
    (wf : ty.wellFormed target v = .ok true) :
    FailsIn Fault.SparesValues (ty.encode target v) := by
  unfold Ty.encode
  rw [wf]
  exact failsIn_bytes_of_wellFormed (failsIn_encodeInt_spares _) wf

namespace Memory

variable {m : Memory} {p : Pointer} {v : Value}

theorem failsIn_checkPtr_spares (m : Memory) (p : Pointer) (size align : Int) :
    FailsIn Fault.SparesValues (m.checkPtr p size align) := by
  unfold checkPtr
  refine .bind (.ite (.error trivial) (.ok _)) fun _ _ => ?_
  refine .bind (.require trivial) fun _ _ => .ite (.pure _) (.bind (.require trivial) fun _ _ => ?_)
  cases p.provenance with
  | none => exact .throw trivial
  | some id =>
      have named : FailsIn Fault.SparesValues (m.allocation id) := by
        intro f hf
        rw [eq_of_allocation_eq_error hf]
        trivial
      refine .bind named fun a _ => ?_
      exact .bind (.require trivial) fun _ _ => .bind (.require trivial) fun _ _ => .pure _

/-- Storing a well-formed value is never refused for the value. -/
theorem failsIn_typedStore_of_wellFormed {place : PlaceTy}
    (wf : place.ty.wellFormed m.target v = .ok true) :
    FailsIn Fault.SparesValues (m.typedStore p v place) := by
  have passed : m.typedStore p v place =
      (place.ty.encode m.target v >>= fun data => m.store p data place.align) := by
    unfold typedStore
    rw [wf]
    rfl
  rw [passed]
  refine .bind (Ty.failsIn_encode_of_wellFormed wf) fun data _ => ?_
  refine .bind (failsIn_checkPtr_spares m p _ _) fun o _ => ?_
  cases o <;> exact .pure _

/-- What was loaded is a value of the type it was loaded at. -/
theorem wellFormed_of_typedLoad {place : PlaceTy} (ints : place.ty.Every Ty.IntSized)
    (arrays : place.ty.Every Ty.Counted)
    (unions : place.ty.Every fun t => t.ChunksSized ∧ t.ChunksInside)
    (h : m.typedLoad p place = .ok v) : place.ty.wellFormed m.target v = .ok true := by
  obtain ⟨data, -, decoded⟩ := typedLoad_eq_ok_iff.1 h
  exact Ty.wellFormed_of_decode ints arrays unions decoded

/-- A memory with a single allocation, of given bytes. -/
def holding (data : List AbsByte) : Memory where
  target := .standard
  chooser := fun _ _ => .ok 16
  allocations := [{ id := ⟨0⟩, contents := data, addr := 16, align := 1, kind := .heap }]

end Memory

namespace Ty

/-- What decoding gives is a valid value of the type: there are as many bytes as the type has, the
type is inhabited, and neither encoding nor storing finds fault with the value. -/
theorem valid_of_decode {ty : Ty} (ints : ty.Every IntSized) (arrays : ty.Every Counted)
    (unions : ty.Every fun t => t.ChunksSized ∧ t.ChunksInside) :
    (∀ data v, ty.decode target data = .ok (some v) →
      (data.length : Int) = ty.byteSize target ∧ ty.inhabited = true ∧
        ty.wellFormed target v = .ok true ∧
        ∀ w t, ty.encode target v ≠ .error (.defect (.illFormed w t))) ∧
    ∀ (m m' : Memory) p p' align align' v, m'.target = m.target →
      m.typedLoad p ⟨ty, align⟩ = .ok v →
        ∀ t, m'.typedStore p' v ⟨ty, align'⟩ ≠ .error (.undefined (.invalidStore t)) := by
  refine ⟨fun data v h => ?_, fun m m' p p' align align' v same h t refused => ?_⟩
  · have wf := wellFormed_of_decode ints arrays unions h
    refine ⟨length_of_decode h, inhabited_of_decode arrays h, wf, fun w t illFormed => ?_⟩
    exact failsIn_encode_of_wellFormed wf _ illFormed
  · have wf : ty.wellFormed m.target v = .ok true :=
      @Memory.wellFormed_of_typedLoad _ _ _ ⟨ty, align⟩ ints arrays unions h
    rw [← same] at wf
    let place : PlaceTy := ⟨ty, align'⟩
    have wf : place.ty.wellFormed m'.target v = .ok true := wf
    exact Memory.failsIn_typedStore_of_wellFormed wf _ refused

/-- Two integers that share a byte. -/
def overlapping : Ty :=
  .tuple [⟨0, .int ⟨false, 2⟩⟩, ⟨1, .int ⟨false, 1⟩⟩] 2

theorem every_overlapping {P : Ty → Prop} (tuple : P overlapping) (wide : P (.int ⟨false, 2⟩))
    (narrow : P (.int ⟨false, 1⟩)) : overlapping.Every P := by
  have leaf (t : IntTy) (here : P (.int t)) : (Ty.int t).Every P :=
    .intro here (List.forall_mem_nil _)
  refine .intro tuple (List.forall_mem_cons.2 ⟨leaf _ wide, ?_⟩)
  exact List.forall_mem_singleton.2 (leaf _ narrow)

/-- What is read from bytes that two fields share is valid, and may be stored where it came from. -/
theorem valid_of_decode_overlapping :
    ((2 : Int) = overlapping.byteSize .standard ∧ overlapping.inhabited = true ∧
      overlapping.wellFormed .standard (.tuple [.int 0x0201, .int 2]) = .ok true ∧
      ∀ w t, overlapping.encode .standard (.tuple [.int 0x0201, .int 2]) ≠
        .error (.defect (.illFormed w t))) ∧
    ∀ t, (Memory.holding [.init 1 none, .init 2 none]).typedStore ⟨16, some ⟨0⟩⟩
      (.tuple [.int 0x0201, .int 2]) ⟨overlapping, 1⟩ ≠ .error (.undefined (.invalidStore t)) := by
  have ints : overlapping.Every IntSized :=
    every_overlapping trivial (by simp [IntSized]) (by simp [IntSized])
  have arrays : overlapping.Every Counted := every_overlapping trivial trivial trivial
  have unions : overlapping.Every fun t => t.ChunksSized ∧ t.ChunksInside :=
    every_overlapping ⟨trivial, trivial⟩ ⟨trivial, trivial⟩ ⟨trivial, trivial⟩
  refine ⟨(valid_of_decode ints arrays unions).1 [.init 1 none, .init 2 none] _ rfl, ?_⟩
  have valid := @valid_of_decode .standard overlapping ints arrays unions
  exact valid.2 (.holding [.init 1 none, .init 2 none]) _ ⟨16, some ⟨0⟩⟩ _ 1 1 _ rfl rfl

/-- The size of a chunk has to be asked for. A chunk of negative size that begins and ends inside
its union reads as no bytes at all, which is not what the type says of it: the value that was loaded
is refused when it is stored again. -/
theorem invalid_of_negative_chunk :
    let u : UnionTy := ⟨[], [⟨1, -1⟩], 1⟩
    let m := Memory.holding [.init 0 none]
    (Ty.union u).Every (fun t => t.IntSized ∧ t.PointeeAligned ∧ t.Counted ∧ t.ChunksInside ∧
      t.VariantsNamed) ∧
      (∀ c ∈ u.chunks, 0 ≤ c.start ∧ c.start + c.size ≤ u.size) ∧
      (Ty.union u).decode .standard [.init 0 none] = .ok (some (.union [[]])) ∧
      (Ty.union u).wellFormed .standard (.union [[]]) = .ok false ∧
      (Ty.union u).encode .standard (.union [[]]) =
        .error (.defect (.illFormed (.union [[]]) (.union u))) ∧
      m.typedLoad ⟨16, some ⟨0⟩⟩ ⟨.union u, 1⟩ = .ok (.union [[]]) ∧
      m.typedStore ⟨16, some ⟨0⟩⟩ (.union [[]]) ⟨.union u, 1⟩ =
        .error (.undefined (.invalidStore (.union u))) := by
  refine ⟨.intro ⟨trivial, trivial, trivial, ?_, trivial⟩ nofun, ?_, rfl, rfl, rfl, rfl, ?_⟩
  · simp [ChunksInside, Chunk.inside_iff]
  · simp
  · simp [Memory.typedStore, Ty.wellFormed, chunksFit, require, bind, Except.bind]

end Ty

end AbstractMachine
