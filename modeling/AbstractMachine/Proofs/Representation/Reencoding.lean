/-
# AbstractMachine.Proofs.Representation.Reencoding — what decoding keeps of bytes

A value that was read from bytes can be written again, and its bytes say no more than the bytes that
it was read from (`encode_le_of_decode`). What is lost on the way is all that the value does not
hold: what stood in the padding, the provenance of integers and booleans, and that of a pointer whose
bytes disagreed on one.

For an enum the tag is written anew, by a rule of its own, and that has to agree with what the
decision tree has read (`Ty.TagsReflected`). All other parts of a value are read from the range that
they are written to, and so no two of them have to be apart: where they share bytes, each says of a
byte what the byte says.
-/
import AbstractMachine.Proofs.Representation.Nullable

namespace AbstractMachine

open Slice AbsByte

variable {target : Target}

namespace Ty

variable {v : Value} {out data : List AbsByte}

/-! ## A decoded value is well-formed -/

/-- What decoding gives is a value of the type, if sizes and counts are what they have to be. -/
theorem wellFormed_of_decode {ty : Ty} (ints : ty.Every IntSized) (arrays : ty.Every Counted)
    (unions : ty.Every fun t => t.ChunksSized ∧ t.ChunksInside)
    (h : ty.decode target data = .ok (some v)) : ty.wellFormed target v = .ok true := by
  induction ty using Ty.induction generalizing v data with
  | bool =>
      obtain ⟨b, _, rfl⟩ := decode_bool_iff.1 h
      exact wellFormed_bool_iff.2 ⟨b, rfl⟩
  | int t =>
      obtain ⟨n, hn, rfl⟩ := decode_int_iff.1 h
      exact wellFormed_int_iff.2 ⟨n, rfl, IntTy.canRepresent_of_decode ints.here hn⟩
  | ptr t =>
      obtain ⟨size, p, hp, rfl⟩ := decode_ptr_iff.1 h
      exact wellFormed_ptr_iff.2 ⟨p, rfl, PtrTy.wellFormed_of_decode size hp⟩
  | tuple fields size ih =>
      obtain ⟨_, vs, rfl, all⟩ := decode_tuple_iff.1 h
      refine wellFormed_tuple_iff.2 ⟨vs, rfl, (forall₂_mem all).imp ?_⟩
      intro f v ⟨hf, hv⟩
      exact ih f hf (ints.field hf) (arrays.field hf) (unions.field hf) hv
  | array elem count ih =>
      obtain ⟨_, vs, rfl, all⟩ := decode_array_iff.1 h
      have counted : 0 ≤ count := arrays.here
      refine wellFormed_array_iff.2 ⟨vs, rfl, ?_, ?_⟩
      · rw [← all.length_eq, elementRanges, List.length_map, List.length_range]
        exact Int.toNat_of_nonneg counted
      · intro v hv
        obtain ⟨bs, _, hbs⟩ := exists_of_forall₂ all hv
        exact ih ints.elem arrays.elem unions.elem hbs
  | union u _ =>
      obtain ⟨size, rfl⟩ := decode_union_iff.1 h
      obtain ⟨sized, inside⟩ := unions.here
      refine wellFormed_union_iff.2 ⟨_, rfl, ?_⟩
      rw [List.forall₂_map_right_iff, List.forall₂_same]
      intro c hc
      have within := inside c hc
      rw [← size] at within
      exact length_read data (sized c hc) within
  | enum e ih _ =>
      obtain ⟨_, n, var, payload, _, hvar, hpayload, rfl⟩ := decode_enum_iff.1 h
      have mem := List.mem_of_getElem? hvar
      refine wellFormed_enum_iff.2 ⟨n, var, payload, rfl, hvar, ?_⟩
      exact ih var mem (ints.payload mem) (arrays.payload mem) (unions.payload mem) hpayload

/-! ## Its bytes are below those that it was read from -/

theorem chunkPieces_map (cs : List Chunk) (read : Chunk → List AbsByte) :
    chunkPieces cs (cs.map read) = cs.map fun c => ⟨c.start, read c⟩ := by
  rw [chunkPieces, List.zipWith_map_right, List.zipWith_self]

/-- The elements of an array are below the ranges that they were read from. -/
theorem forall₂_leAll_of_decode {elem : Ty} {ranges bss : List (List AbsByte)} {vs : List Value}
    (decoded : List.Forall₂ (fun bs v => elem.decode target bs = .ok (some v)) ranges vs)
    (encoded : List.Forall₂ (fun v bs => elem.bytes target v = .ok bs) vs bss)
    (step : ∀ range, ∀ v ∈ vs, ∀ bs, elem.decode target range = .ok (some v) →
      elem.bytes target v = .ok bs → leAll bs range = true) :
    List.Forall₂ (fun bs range => leAll bs range = true) bss ranges := by
  induction decoded generalizing bss with
  | nil =>
      cases encoded
      exact .nil
  | cons head _ ih =>
      obtain _ | ⟨hbs, rest⟩ := encoded
      refine .cons (step _ _ List.mem_cons_self _ head hbs) (ih rest ?_)
      exact fun range v hv => step range v (List.mem_cons_of_mem _ hv)

/-- The bytes of a value that was read are at most as defined as those that it was read from. -/
theorem leAll_of_reflecting {ty : Ty} (reflecting : ty.Every (Reflecting target))
    (wf : ty.wellFormed target v = .ok true) (h : ty.decode target data = .ok (some v))
    (hout : ty.bytes target v = .ok out) : leAll out data = true := by
  induction ty using Ty.induction generalizing v data out with
  | bool =>
      obtain ⟨b, hb, rfl⟩ := decode_bool_iff.1 h
      obtain rfl := Except.ok.inj hout
      exact leAll_of_decodeBool hb
  | int t =>
      obtain ⟨n, hn, rfl⟩ := decode_int_iff.1 h
      obtain ⟨ds, hds, below⟩ := IntTy.encode_of_decode hn
      obtain ⟨es, hes, rfl⟩ := bytes_int_iff.1 hout
      rwa [← Except.ok.inj (hds.symm.trans hes)]
  | ptr t =>
      obtain ⟨size, p, hp, rfl⟩ := decode_ptr_iff.1 h
      obtain ⟨ds, hds, below⟩ := PtrTy.encode_of_decode size hp
      obtain ⟨es, hes, rfl⟩ := bytes_ptr_iff.1 hout
      rwa [← Except.ok.inj (hds.symm.trans hes)]
  | tuple fields size ih =>
      obtain ⟨size, vs, rfl, all⟩ := decode_tuple_iff.1 h
      obtain ⟨_, ⟨⟩, wfs⟩ := wellFormed_tuple_iff.1 wf
      obtain ⟨ps, pieces, rfl⟩ := (bytes_tuple_iff all.length_eq).1 hout
      have parts := List.Forall₂.mp (fun _ _ => And.intro) all wfs
      -- Fields may hide each other, for each is below the buffer where it lies.
      refine leAll_overlayAll_of_forall (leAll_blank size.symm) ?_
      intro p hp
      obtain ⟨f, hf, w, ⟨hw, wf⟩, start, hbytes⟩ := pieces.exists_field parts hp
      have below := ih f hf (reflecting.field hf) wf hw hbytes
      have length : (p.content.length : Int) = f.ty.byteSize target := by
        rw [length_eq_of_leAll below]
        exact length_of_decode hw
      have inside := reflecting.here.fields_inside f hf
      rw [Piece.extent, start, length, size]
      exact ⟨inside, below⟩
  | array elem count ih =>
      obtain ⟨size, vs, rfl, all⟩ := decode_array_iff.1 h
      obtain ⟨bss, each, rfl⟩ := bytes_array_iff.1 hout
      obtain ⟨_, ⟨⟩, number, wfs⟩ := wellFormed_array_iff.1 wf
      rw [← flatten_elementRanges (number ▸ Int.natCast_nonneg _) size]
      refine leAll_flatten (forall₂_leAll_of_decode all each ?_)
      intro range w hw' bs hw hbs
      exact ih reflecting.elem (wfs w hw') hw hbs
  | union u _ =>
      obtain ⟨size, rfl⟩ := decode_union_iff.1 h
      obtain ⟨_, ⟨⟩, fit⟩ := wellFormed_union_iff.1 wf
      have length := (List.forall₂_same.1 (List.forall₂_map_right_iff.1 fit))
      rw [bytes_union fit] at hout
      obtain rfl := Except.ok.inj hout
      refine leAll_overlayAll_of_forall (leAll_blank size.symm) ?_
      intro p hp
      rw [chunkPieces_map] at hp
      obtain ⟨c, hc, rfl⟩ := List.mem_map.1 hp
      rw [Piece.extent, length c hc, size]
      exact ⟨reflecting.here.chunks_inside c hc, leAll_refl _⟩
  | enum e ih _ =>
      obtain ⟨size, n, var, payload, found, hvar, hpayload, rfl⟩ := decode_enum_iff.1 h
      obtain ⟨bytes, ps, hbytes, pieces, rfl⟩ := (bytes_enum_iff hvar).1 hout
      obtain ⟨_, _, _, ⟨⟩, hvar', wf⟩ := wellFormed_enum_iff.1 wf
      obtain rfl := Option.some.inj (hvar.symm.trans hvar')
      have mem := List.mem_of_getElem? hvar
      have below := ih var mem (reflecting.payload mem) wf hpayload hbytes
      have same : e.size = bytes.length := by
        rw [length_eq_of_leAll below, size]
      have inside := inside_of_map_extent pieces.map_extent (reflecting.here.tags_inside var mem)
      have tag := reflecting.here.tags_reflected n var data _ size found hvar
        (writeTag_eq_ok_iff.2 ⟨ps, pieces, rfl⟩)
      rw [same] at inside
      -- What is known of the tag over blank bytes carries over to the payload under it.
      exact leAll_overlayAll_of_blank inside same below tag

/-- The bytes of a value that was read at a coherent layout are below those that it was read from. -/
theorem leAll_of_decode {ty : Ty} (coherent : ty.Every (Coherent target))
    (h : ty.decode target data = .ok (some v)) (hout : ty.bytes target v = .ok out) :
    leAll out data = true := by
  have wf := wellFormed_of_decode (coherent.imp fun _ c => c.int_sized)
    (coherent.imp fun _ c => c.counted)
    (coherent.imp fun _ c => ⟨c.chunks_sized, c.chunks_inside⟩) h
  exact leAll_of_reflecting (coherent.imp fun _ c => c.reflecting) wf h hout

/-- Reading bytes and writing the value again loses definedness at most. -/
theorem encode_le_of_decode {ty : Ty} (coherent : ty.Every (Coherent target))
    (h : ty.decode target data = .ok (some v)) :
    ∃ bytes, ty.encode target v = .ok bytes ∧ leAll bytes data = true := by
  have wf := wellFormed_of_decode (coherent.imp fun _ c => c.int_sized)
    (coherent.imp fun _ c => c.counted)
    (coherent.imp fun _ c => ⟨c.chunks_sized, c.chunks_inside⟩) h
  obtain ⟨bytes, hbytes⟩ := exists_bytes (coherent.imp fun _ c => c.tags_fit) wf
  exact ⟨bytes, encode_eq_ok_iff.2 ⟨wf, hbytes⟩, leAll_of_decode coherent h hbytes⟩

/-- A reference whose bytes disagree on a provenance is written back without one. -/
theorem encode_le_of_decode_optionRef :
    ∃ bytes, (optionRef ⟨2, .big⟩).encode ⟨2, .big⟩ (.nonnull ⟨0x1000, none⟩) = .ok bytes ∧
      leAll bytes [.init 16 none, .init 0 (some ⟨3⟩)] = true :=
  encode_le_of_decode (coherent_nullable (by decide)) rfl

/-- Counts and the sizes of chunks have to be asked for. Reading at a negative count or size gives
what reading at zero does, but that is no value of the type and has no bytes. -/
theorem encode_of_decode_of_negative :
    ((Ty.array .unit (-1)).Every (fun t => t.Tidy .standard ∧ t.TagsReflected .standard) ∧
      (Ty.array .unit (-1)).decode .standard [] = .ok (some (.tuple [])) ∧
      (Ty.array .unit (-1)).encode .standard (.tuple []) =
        .error (.defect (.illFormed (.tuple []) (.array .unit (-1))))) ∧
    ((Ty.union ⟨[], [⟨1, -1⟩], 1⟩).Every
        (fun t => t.Tidy .standard ∧ t.TagsReflected .standard) ∧
      (Ty.union ⟨[], [⟨1, -1⟩], 1⟩).decode .standard [.uninit] = .ok (some (.union [[]])) ∧
      (Ty.union ⟨[], [⟨1, -1⟩], 1⟩).encode .standard (.union [[]]) =
        .error (.defect (.illFormed (.union [[]]) (.union ⟨[], [⟨1, -1⟩], 1⟩)))) := by
  have unit : Ty.unit.Every fun t => t.Tidy .standard ∧ t.TagsReflected .standard :=
    .intro ⟨tidy_tuple_iff.2 ⟨by simp [FieldsInside], by simp [FieldsApart]⟩, trivial⟩
      (by simp [components, Ty.unit])
  refine ⟨⟨.intro ⟨tidy_array, trivial⟩ ?_, rfl, rfl⟩,
    ⟨.intro ⟨tidy_union_iff.2 ⟨?_, ?_⟩, trivial⟩ ?_, rfl, rfl⟩⟩
  · simpa [components] using unit
  · simp [ChunksInside, Chunk.inside_iff]
  · simp [ChunksApart]
  · simp [components]

end Ty

end AbstractMachine
