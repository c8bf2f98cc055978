/-
# AbstractMachine.Proofs.Representation.Positions — where the parts of a value are in its bytes

An encoding is made by laying parts over a buffer, one after the other. If the parts lie inside and
share no byte, no part hides another, and the order does not show: each is found in its range as it
was laid, and what no part covers is what was there before (`Ty.Positional`). For fields and chunks
that is nothing, and for the tag of an enum it is the payload.

Nothing keeps a tuple or a union from having a negative size. As far as bytes go this is no size at
all, and a range of such a size is empty. The parts of a component are found in the same way, so
`encode_positional` says of every byte of an encoding, however deep, what it is.
-/
import AbstractMachine.Proofs.Representation.RoundTrip

namespace AbstractMachine

open Slice

variable {target : Target}

namespace Ty

/-! ## Layouts -/

/-- No two writes of the tag of a variant share a byte. -/
def TagsApart : Ty → Prop
  | .enum e => ∀ v ∈ e.variants, v.tagger.Pairwise fun w x => w.extent.Apart x.extent
  | _ => True

/-- A layout in which no part that is written sticks out or hides another. A tag may still hide bytes
of its payload. -/
structure Unobscured (target : Target) (t : Ty) : Prop extends Enclosed target t where
  fields_apart : t.FieldsApart target
  chunks_apart : t.ChunksApart
  tags_fit : t.TagsFit
  tags_apart : t.TagsApart

/-! ## What is where -/

/-- What the bytes of a value are, range by range. -/
inductive Positional (target : Target) : Ty → Value → List AbsByte → Prop
  | bool {b : Bool} : Positional target .bool (.bool b) [.init (if b then 1 else 0) none]
  | int {t : IntTy} {n : Int} {ds : List UInt8}
      (written : target.endian.encode n t.size t.signed = .ok ds) :
      Positional target (.int t) (.int n) (AbsByte.ofData ds none)
  | ptr {t : PtrTy} {p : Pointer} {ds : List UInt8}
      (written : target.endian.encode p.addr target.ptrSize false = .ok ds) :
      Positional target (.ptr t) (.ptr p) (AbsByte.ofData ds p.provenance)
  | tuple {fields : List Field} {size : Int} {vs : List Value} {data : List AbsByte}
      (found : List.Forall₂ (fun (f : Field) v => f.ty.encode target v =
        .ok (read data f.offset (f.offset + (f.ty.byteSize target).toNat))) fields vs)
      (padding : ∀ (i : Nat) x, (∀ f ∈ fields, (i : Int) ∉ f.extent target) →
        data[i]? = some x → x = .uninit) :
      Positional target (.tuple fields size) (.tuple vs) data
  | array {elem : Ty} {count : Int} {vs : List Value} {data : List AbsByte}
      (found : ∀ (k : Nat) v, vs[k]? = some v → elem.encode target v =
        .ok (read data (k * (elem.byteSize target).toNat) ((k + 1) * (elem.byteSize target).toNat))) :
      Positional target (.array elem count) (.tuple vs) data
  | union {u : UnionTy} {bss : List (List AbsByte)} {data : List AbsByte}
      (found : List.Forall₂ (fun (c : Chunk) bs => read data c.start (c.start + c.size) = bs)
        u.chunks bss)
      (padding : ∀ (i : Nat) x, (∀ c ∈ u.chunks, (i : Int) ∉ c) → data[i]? = some x → x = .uninit) :
      Positional target (.union u) (.union bss) data
  | enum {e : EnumTy} {n : Nat} {var : Variant} {payload : Value} {inner data : List AbsByte}
      (hvar : e.variants[n]? = some var) (encoded : var.ty.encode target payload = .ok inner)
      (tagged : ∀ w ∈ var.tagger, ∃ ds, target.endian.encode w.value w.ty.size w.ty.signed = .ok ds ∧
        read data w.offset (w.offset + w.ty.size) = AbsByte.ofData ds none)
      (rest : ∀ i : Nat, (∀ w ∈ var.tagger, (i : Int) ∉ w.extent) → data[i]? = inner[i]?) :
      Positional target (.enum e) (.variant n payload) data

variable {v : Value} {data : List AbsByte}

theorem positional_tuple {fields : List Field} {size : Int} {vs : List Value}
    {ps : List (Piece AbsByte)} (unobscured : (Ty.tuple fields size).Every (Unobscured target))
    (all : List.Forall₂ (fun (f : Field) v => f.ty.wellFormed target v = .ok true) fields vs)
    (pieces : FieldPieces target fields vs ps) :
    (Ty.tuple fields size).Positional target (.tuple vs) (overlayAll ps (AbsByte.blank size)) := by
  have enclosed := unobscured.imp fun _ s => s.toEnclosed
  have inside := inside_of_fieldPieces enclosed all pieces
  have extents := map_extent_fieldPieces enclosed all pieces
  -- What is laid for a field of negative size is empty, so the ranges are cut off at no bytes.
  have apart := apart_of_map_extent extents (unobscured.here.fields_apart.imp Chunk.Apart.clip)
  refine .tuple (pieces.forall₂ all fun f hf v p hp wf start made => ?_) fun i x uncovered hx => ?_
  · have length := length_of_bytes (enclosed.field hf) wf made
    have found := read_overlayAll inside apart hp
    rw [start, length] at found
    rw [found]
    exact encode_eq_ok_iff.2 ⟨wf, made⟩
  · -- No piece covers the byte, so it is one of the blank buffer.
    rw [getElem?_overlayAll_of_forall inside fun p hp hi => ?_] at hx
    · exact AbsByte.eq_uninit_of_getElem?_blank hx
    · obtain ⟨f, hf, same⟩ := exists_of_map_extent extents hp
      exact uncovered f hf (Chunk.mem_clip_iff.1 (same ▸ hi))

theorem positional_array {elem : Ty} {count : Int} {vs : List Value} {bss : List (List AbsByte)}
    (enclosed : elem.Every (Enclosed target)) (all : ∀ v ∈ vs, elem.wellFormed target v = .ok true)
    (each : List.Forall₂ (fun v bs => elem.bytes target v = .ok bs) vs bss) :
    (Ty.array elem count).Positional target (.tuple vs) bss.flatten := by
  -- Elements are not laid over a buffer but put one behind the other: cut into ranges again, the bytes
  -- are what they were put together of.
  have same := length_of_arrayBytes enclosed all each
  refine .array fun k v hv => ?_
  have bound : k < bss.length := each.length_eq ▸ (List.getElem?_eq_some_iff.1 hv).1
  have cut : (elementRanges (elem.byteSize target).toNat bss.length bss.flatten)[k]? = bss[k]? := by
    rw [elementRanges_flatten fun bs hbs => congrArg Nat.cast (same bs hbs)]
  rw [elementRanges, List.getElem?_map, Int.toNat_natCast, List.getElem?_range bound] at cut
  have made := (forall₂_iff_getElem?.1 each).2 k v _ hv cut.symm
  exact encode_eq_ok_iff.2 ⟨all v (List.mem_of_getElem? hv), made⟩

theorem positional_union {u : UnionTy} {bss : List (List AbsByte)}
    (unobscured : (Ty.union u).Unobscured target)
    (fit : List.Forall₂ (fun (c : Chunk) bs => (bs.length : Int) = c.size) u.chunks bss) :
    (Ty.union u).Positional target (.union bss)
      (overlayAll (chunkPieces u.chunks bss) (AbsByte.blank u.size)) := by
  have inside := inside_of_chunkPieces unobscured.chunks_inside fit
  have extents := map_extent_chunkPieces fit
  have apart := apart_of_map_extent extents unobscured.chunks_apart
  refine .union (forall₂_of_chunkPieces fit fun c hc bs size hp => ?_) fun i x uncovered hx => ?_
  · have found := read_overlayAll inside apart hp
    rwa [size] at found
  · rw [getElem?_overlayAll_of_forall inside fun p hp hi => ?_] at hx
    · exact AbsByte.eq_uninit_of_getElem?_blank hx
    · obtain ⟨c, hc, rfl⟩ := exists_of_map_extent extents hp
      exact uncovered _ hc hi

theorem positional_enum {e : EnumTy} {n : Nat} {var : Variant} {payload : Value}
    {inner : List AbsByte} {ps : List (Piece AbsByte)}
    (unobscured : (Ty.enum e).Every (Unobscured target)) (hvar : e.variants[n]? = some var)
    (wf : var.ty.wellFormed target payload = .ok true)
    (made : var.ty.bytes target payload = .ok inner) (pieces : TagPieces target var.tagger ps) :
    (Ty.enum e).Positional target (.variant n payload) (overlayAll ps inner) := by
  have enclosed := unobscured.imp fun _ s => s.toEnclosed
  have mem := List.mem_of_getElem? hvar
  have inside := inside_of_tagPieces enclosed mem wf made pieces
  have apart := apart_of_map_extent pieces.map_extent (unobscured.here.tags_apart var mem)
  refine .enum hvar (encode_eq_ok_iff.2 ⟨wf, made⟩) (fun w hw => ?_) fun i uncovered => ?_
  · obtain ⟨p, hp, start, ds, written, content⟩ := exists_of_forall₂ pieces.flip hw
    have found := read_overlayAll inside apart hp
    rw [start, content, AbsByte.length_ofData, Endian.length_of_encode written] at found
    exact ⟨ds, written, found⟩
  · refine getElem?_overlayAll_of_forall inside fun p hp hi => ?_
    obtain ⟨w, hw, same⟩ := exists_of_map_extent pieces.map_extent hp
    exact uncovered w hw (same ▸ hi)

/-- The bytes of a well-formed value hold each of its parts in its range. -/
theorem positional_of_bytes {ty : Ty} (unobscured : ty.Every (Unobscured target))
    (wf : ty.wellFormed target v = .ok true) (h : ty.bytes target v = .ok data) :
    ty.Positional target v data := by
  cases ty with
  | bool =>
      obtain ⟨b, rfl⟩ := wellFormed_bool_iff.1 wf
      obtain rfl := Except.ok.inj h
      exact .bool
  | int t =>
      obtain ⟨n, rfl, -⟩ := wellFormed_int_iff.1 wf
      obtain ⟨ds, written, rfl⟩ := bytes_int_iff.1 h
      exact .int written
  | ptr t =>
      obtain ⟨p, rfl, -⟩ := wellFormed_ptr_iff.1 wf
      obtain ⟨ds, written, rfl⟩ := bytes_ptr_iff.1 h
      exact .ptr written
  | tuple fields size =>
      obtain ⟨vs, rfl, all⟩ := wellFormed_tuple_iff.1 wf
      obtain ⟨ps, pieces, rfl⟩ := (bytes_tuple_iff all.length_eq).1 h
      exact positional_tuple unobscured all pieces
  | array elem count =>
      obtain ⟨vs, rfl, -, all⟩ := wellFormed_array_iff.1 wf
      obtain ⟨bss, each, rfl⟩ := bytes_array_iff.1 h
      exact positional_array (unobscured.elem.imp fun _ s => s.toEnclosed) all each
  | union u =>
      obtain ⟨bss, rfl, fit⟩ := wellFormed_union_iff.1 wf
      rw [bytes_union fit] at h
      obtain rfl := Except.ok.inj h
      exact positional_union unobscured.here fit
  | enum e =>
      obtain ⟨n, var, payload, rfl, hvar, wf⟩ := wellFormed_enum_iff.1 wf
      obtain ⟨inner, ps, made, pieces, rfl⟩ := (bytes_enum_iff hvar).1 h
      exact positional_enum unobscured hvar wf made pieces

/-- A well-formed value has bytes, as many as its type and none where its size is negative; and each of
them is known: fields, elements and chunks are found in their ranges, the tag of an enum over the
bytes of its payload, and nothing anywhere else. -/
theorem encode_positional {ty : Ty} (unobscured : ty.Every (Unobscured target))
    (wf : ty.wellFormed target v = .ok true) :
    ∃ data, ty.encode target v = .ok data ∧ data.length = (ty.byteSize target).toNat ∧
      ty.Positional target v data := by
  obtain ⟨data, made⟩ := exists_bytes (unobscured.imp fun _ s => s.tags_fit) wf
  exact ⟨data, encode_eq_ok_iff.2 ⟨wf, made⟩,
    length_of_bytes (unobscured.imp fun _ s => s.toEnclosed) wf made,
    positional_of_bytes unobscured wf made⟩

/-- Two booleans behind an enum and a field without bytes, in another order than in memory. The enum
has a union under a tag of two writes, and the union keeps one byte of its four. -/
def patchwork : Ty :=
  .tuple [⟨6, .array .bool 2⟩,
    ⟨0, .enum ⟨[⟨.union ⟨[⟨1, .bool⟩], [⟨1, 1⟩], 4⟩, [⟨3, ⟨false, 1⟩, 7⟩, ⟨0, ⟨false, 1⟩, 1⟩]⟩],
      .known 0, .bool, 4⟩⟩, ⟨5, .tuple [] 0⟩] 9

theorem unobscured_patchwork : patchwork.Every (Unobscured .standard) := by
  have bool : Ty.bool.Every (Unobscured .standard) :=
    .intro ⟨⟨trivial, trivial, trivial, trivial⟩, trivial, trivial, trivial, trivial⟩ nofun
  have bools : (Ty.array .bool 2).Every (Unobscured .standard) :=
    .intro ⟨⟨trivial, trivial, trivial, trivial⟩, trivial, trivial, trivial, trivial⟩
      (List.forall_mem_singleton.2 bool)
  have unit : Ty.unit.Every (Unobscured .standard) :=
    .intro ⟨⟨nofun, trivial, trivial, trivial⟩, .nil, trivial, trivial, trivial⟩ nofun
  have union : (Ty.union ⟨[⟨1, .bool⟩], [⟨1, 1⟩], 4⟩).Every (Unobscured .standard) := by
    refine .intro ⟨⟨trivial, ?_, trivial, trivial⟩, trivial, ?_, trivial, trivial⟩ nofun
    · exact List.forall_mem_singleton.2 (by decide)
    · exact List.pairwise_singleton _ _
  have enum : (Ty.enum ⟨[⟨.union ⟨[⟨1, .bool⟩], [⟨1, 1⟩], 4⟩,
      [⟨3, ⟨false, 1⟩, 7⟩, ⟨0, ⟨false, 1⟩, 1⟩]⟩], .known 0, .bool, 4⟩).Every
      (Unobscured .standard) := by
    refine .intro ⟨⟨trivial, trivial, ?_, ?_⟩, trivial, trivial, ?_, ?_⟩
      (List.forall_mem_singleton.2 union)
    · exact List.forall_mem_singleton.2 rfl
    · exact List.forall_mem_singleton.2 (by decide)
    · exact List.forall_mem_singleton.2 (List.forall_mem_cons.2 ⟨rfl, List.forall_mem_singleton.2 rfl⟩)
    · exact List.forall_mem_singleton.2 (by decide)
  refine .intro ⟨⟨?_, trivial, trivial, trivial⟩, ?_, trivial, trivial, trivial⟩
    (List.forall_mem_cons.2 ⟨bools, List.forall_mem_cons.2 ⟨enum, List.forall_mem_singleton.2 unit⟩⟩)
  · show ∀ f ∈ _, Chunk.Inside _ _
    decide
  · show List.Pairwise _ _
    decide

/-- The name that a byte of a chunk has is kept, and tags and booleans have none. -/
theorem encode_positional_patchwork :
    ∃ data, patchwork.encode .standard (.tuple [.tuple [.bool true, .bool false],
        .variant 0 (.union [[.init 9 (some ⟨0⟩)]]), .tuple []]) = .ok data ∧
      data.length = 9 ∧
      patchwork.Positional .standard (.tuple [.tuple [.bool true, .bool false],
        .variant 0 (.union [[.init 9 (some ⟨0⟩)]]), .tuple []]) data ∧
      data = [.init 1 none, .init 9 (some ⟨0⟩), .uninit, .init 7 none, .uninit, .uninit, .init 1 none,
        .init 0 none, .uninit] := by
  obtain ⟨data, encoded, length, positional⟩ := encode_positional (v := .tuple
    [.tuple [.bool true, .bool false], .variant 0 (.union [[.init 9 (some ⟨0⟩)]]), .tuple []])
    unobscured_patchwork rfl
  exact ⟨data, encoded, length, positional, Except.ok.inj (encoded.symm.trans rfl)⟩

/-- A tuple or a union may have a negative size and be laid out well in everything else. Its value is
encoded as no bytes then, and that is not how many the type has. -/
theorem length_encode_of_negative_size :
    ((Ty.tuple [] (-1)).Every (fun t => t.Tidy .standard ∧ t.TagsApart) ∧
      (Ty.tuple [] (-1)).wellFormed .standard (.tuple []) = .ok true ∧
      ∃ data, (Ty.tuple [] (-1)).encode .standard (.tuple []) = .ok data ∧
        (data.length : Int) ≠ (Ty.tuple [] (-1)).byteSize .standard) ∧
    ((Ty.union ⟨[], [], -1⟩).Every (fun t => t.Tidy .standard ∧ t.TagsApart) ∧
      (Ty.union ⟨[], [], -1⟩).wellFormed .standard (.union []) = .ok true ∧
      ∃ data, (Ty.union ⟨[], [], -1⟩).encode .standard (.union []) = .ok data ∧
        (data.length : Int) ≠ (Ty.union ⟨[], [], -1⟩).byteSize .standard) :=
  ⟨⟨.intro ⟨tidy_tuple_iff.2 ⟨nofun, .nil⟩, trivial⟩ nofun, rfl, [], rfl, by decide⟩,
    ⟨.intro ⟨tidy_union_iff.2 ⟨nofun, .nil⟩, trivial⟩ nofun, rfl, [], rfl, by decide⟩⟩

end Ty

end AbstractMachine
