/-
# AbstractMachine.Proofs.Representation.RoundTrip — a value comes back from its bytes

At a sound layout decoding inverts encoding (`decode_encode_of_sound`). The induction needs more than
that. Where an enum lays the tag of a variant over the bytes of its payload, these are no longer the
payload's encoding, and still the payload has to be found in them. So the statement that is carried
through the types is about all bytes that differ from the encoding only in its padding
(`FillsPadding`): every value is found in its encoding, whatever its padding is filled with
(`recovers_of_fillsPadding`).

Filling the padding makes bytes more defined. That is why it does not mislead the decision tree of an
enum that lies deeper inside: the tree finds in more defined bytes what it finds in less defined ones.

Two things may keep a value from coming back. Bytes are never as many as a negative number says, so
they stand for nothing at a type of such a size; if they do stand for a value, no size was in the way
(`Readable`). And a pointer without bytes has nowhere to put its provenance, so less of it comes back
(`Value.Recovers`).
-/
import AbstractMachine.Proofs.Representation.Monotone

namespace AbstractMachine

open Slice AbsByte

variable {target : Target}

/-! ## Bytes that differ in the padding -/

namespace Ty

/-- The right bytes are the left ones, with some uninitialised padding of the type filled. -/
def FillsPadding (target : Target) (ty : Ty) (xs ys : List AbsByte) : Prop :=
  xs.length = ys.length ∧
    ∀ i : Nat, ys[i]? = xs[i]? ∨ xs[i]? = some .uninit ∧ ¬ ty.Covers target i

namespace FillsPadding

variable {ty part : Ty} {xs ys : List AbsByte}

theorem refl (ty : Ty) (xs : List AbsByte) : ty.FillsPadding target xs xs :=
  ⟨rfl, fun _ => Or.inl rfl⟩

/-- Filling the padding makes bytes more defined. -/
theorem leAll (fill : ty.FillsPadding target xs ys) : leAll xs ys = true := by
  rw [leAll_iff_getElem?]
  refine ⟨fill.1, fun i x y hx hy => ?_⟩
  rcases fill.2 i with same | ⟨blank, _⟩
  · obtain rfl := Option.some.inj (hx.symm.trans (same.symm.trans hy))
    exact le_refl x
  · obtain rfl := Option.some.inj (hx.symm.trans blank)
    exact uninit_le y

/-- What filling does to one position of a range. -/
theorem getElem? {start size : Int} (fill : ty.FillsPadding target xs ys)
    (inside : (Chunk.mk start size).Inside xs.length) {j : Nat} (hj : (j : Int) < size) :
    ys[(start + j).toNat]? = xs[(start + j).toNat]? ∨
      xs[(start + j).toNat]? = some .uninit ∧ ¬ ty.Covers target (start + j) := by
  have hi : start + j ∈ Chunk.mk start size := by
    rw [Chunk.mem_iff]
    dsimp only
    omega
  have place := fill.2 (start + j).toNat
  rwa [Int.toNat_of_nonneg (inside _ hi).1] at place

/-- Bytes that the type covers are the same. -/
theorem read_eq {start size : Int} (fill : ty.FillsPadding target xs ys) (nonneg : 0 ≤ size)
    (inside : (Chunk.mk start size).Inside xs.length)
    (covered : ∀ i ∈ Chunk.mk start size, ty.Covers target i) :
    Slice.read ys start (start + size) = Slice.read xs start (start + size) := by
  apply List.ext_getElem?
  intro j
  rw [getElem?_read xs nonneg inside, getElem?_read ys nonneg (fill.1 ▸ inside)]
  by_cases hj : (j : Int) < size
  · rw [if_pos hj, if_pos hj]
    rcases fill.getElem? inside hj with same | ⟨_, padding⟩
    · exact same
    · refine absurd (covered (start + j) ?_) padding
      rw [Chunk.mem_iff]
      dsimp only
      omega
  · rw [if_neg hj, if_neg hj]

/-- Filling the padding of a type fills the padding of its parts. -/
theorem read {start size : Int} (fill : ty.FillsPadding target xs ys) (nonneg : 0 ≤ size)
    (inside : (Chunk.mk start size).Inside xs.length)
    (covers : ∀ i, part.Covers target i → ty.Covers target (start + i)) :
    part.FillsPadding target (Slice.read xs start (start + size))
      (Slice.read ys start (start + size)) := by
  have length := length_read xs nonneg inside
  have length' := length_read ys nonneg (fill.1 ▸ inside)
  refine ⟨by omega, fun j => ?_⟩
  rw [getElem?_read xs nonneg inside, getElem?_read ys nonneg (fill.1 ▸ inside)]
  by_cases hj : (j : Int) < size
  · rw [if_pos hj, if_pos hj]
    rcases fill.getElem? inside hj with same | ⟨blank, padding⟩
    · exact Or.inl same
    · exact Or.inr ⟨blank, fun covered => padding (covers j covered)⟩
  · rw [if_neg hj, if_neg hj]
    exact Or.inl rfl

/-- Nothing can be filled in bytes that the type covers throughout. -/
theorem eq_of_covers (fill : ty.FillsPadding target xs ys)
    (covers : ∀ i : Nat, i < xs.length → ty.Covers target i) : ys = xs := by
  apply List.ext_getElem?
  intro i
  rcases fill.2 i with same | ⟨blank, padding⟩
  · exact same
  · exact absurd (covers i (List.getElem?_eq_some_iff.1 blank).1) padding

end FillsPadding

end Ty

/-! ## Parts in the bytes of the whole -/

/-- What the pieces of fields tell about each field and its value. -/
theorem FieldPieces.forall₂ {R S : Field → Value → Prop} {fields : List Field} {vs : List Value}
    {ps : List (Piece AbsByte)} (pieces : FieldPieces target fields vs ps)
    (all : List.Forall₂ R fields vs)
    (step : ∀ f ∈ fields, ∀ v, ∀ p ∈ ps, R f v → p.start = f.offset →
      f.ty.bytes target v = .ok p.content → S f v) : List.Forall₂ S fields vs := by
  induction pieces with
  | nil => exact .nil
  | @cons f v bytes fields vs ps hv _ ih =>
      obtain _ | ⟨head, tail⟩ := all
      refine .cons (step f List.mem_cons_self v _ List.mem_cons_self head rfl hv) ?_
      exact ih tail fun g hg w p hp => step g (List.mem_cons_of_mem f hg) w p
        (List.mem_cons_of_mem _ hp)

/-- What the pieces of chunks tell about each chunk and its bytes. -/
theorem forall₂_of_chunkPieces {S : Chunk → List AbsByte → Prop} {cs : List Chunk}
    {bss : List (List AbsByte)}
    (fit : List.Forall₂ (fun (c : Chunk) bs => (bs.length : Int) = c.size) cs bss)
    (step : ∀ c ∈ cs, ∀ bs, (bs.length : Int) = c.size →
      ⟨c.start, bs⟩ ∈ chunkPieces cs bss → S c bs) : List.Forall₂ S cs bss := by
  induction fit with
  | nil => exact .nil
  | @cons c bs cs bss size _ ih =>
      refine .cons (step c List.mem_cons_self bs size List.mem_cons_self) ?_
      exact ih fun d hd ds hds hp =>
        step d (List.mem_cons_of_mem c hd) ds hds (List.mem_cons_of_mem _ hp)

namespace Ty

variable {v : Value} {out data : List AbsByte}

/-- A field is found where its piece was laid, with some padding filled. -/
theorem fillsPadding_field {fields : List Field} {size : Int} {vs : List Value}
    {ps : List (Piece AbsByte)} (retrievable : (Ty.tuple fields size).Every (Retrievable target))
    (all : List.Forall₂ (fun (f : Field) v => f.ty.wellFormed target v = .ok true) fields vs)
    (pieces : FieldPieces target fields vs ps)
    (fill : (Ty.tuple fields size).FillsPadding target (overlayAll ps (blank size)) data)
    {f : Field} (hf : f ∈ fields) {p : Piece AbsByte} (hp : p ∈ ps) (start : p.start = f.offset)
    (length : (p.content.length : Int) = f.ty.byteSize target) :
    f.ty.FillsPadding target p.content
      (Slice.read data f.offset (f.offset + f.ty.byteSize target)) := by
  have enclosed := retrievable.imp fun _ r => r.toEnclosed
  have inside := inside_of_fieldPieces enclosed all pieces
  have apart := apart_of_map_extent (map_extent_fieldPieces enclosed all pieces)
    (retrievable.here.fields_apart.imp Chunk.Apart.clip)
  have content := read_overlayAll inside apart hp
  have within := inside p hp
  rw [← length_overlayAll inside, Piece.extent, start, length] at within
  rw [start, length] at content
  rw [← content]
  exact fill.read (by omega) within fun i => .field hf

/-- An element is found where its bytes stand, with some padding filled. -/
theorem fillsPadding_elem {elem : Ty} {count : Int}
    (length : (out.length : Int) = elem.byteSize target * count)
    (fill : (Ty.array elem count).FillsPadding target out data)
    (sized : 0 ≤ elem.byteSize target) {k : Nat} (hk : (k : Int) < count) :
    elem.FillsPadding target
      (Slice.read out (k * elem.byteSize target) ((k + 1) * elem.byteSize target))
      (Slice.read data (k * elem.byteSize target) ((k + 1) * elem.byteSize target)) := by
  have within := inside_elem sized hk
  rw [← length] at within
  rw [Int.add_mul, Int.one_mul]
  exact fill.read sized within fun i => .elem (Int.natCast_nonneg k) hk

/-- A chunk has no padding, and is found as it was laid. -/
theorem read_chunk {u : UnionTy} {bss : List (List AbsByte)}
    (retrievable : (Ty.union u).Retrievable target)
    (fit : List.Forall₂ (fun (c : Chunk) bs => (bs.length : Int) = c.size) u.chunks bss)
    (fill : (Ty.union u).FillsPadding target
      (overlayAll (chunkPieces u.chunks bss) (blank u.size)) data)
    {c : Chunk} (hc : c ∈ u.chunks) {bs : List AbsByte} (size : (bs.length : Int) = c.size)
    (hp : ⟨c.start, bs⟩ ∈ chunkPieces u.chunks bss) :
    Slice.read data c.start (c.start + c.size) = bs := by
  have inside := inside_of_chunkPieces retrievable.chunks_inside fit
  have apart := apart_of_map_extent (map_extent_chunkPieces fit) retrievable.chunks_apart
  have content := read_overlayAll inside apart hp
  have within := inside _ hp
  rw [← length_overlayAll inside, Piece.extent, size] at within
  rw [size] at content
  exact (fill.read_eq (by omega) within fun i hi => .chunk hc hi).trans content

/-- A tag touches nothing but padding of the payload that it is laid over. -/
theorem fillsPadding_tag {e : EnumTy} {var : Variant} {payload : Value} {bytes : List AbsByte}
    {ps : List (Piece AbsByte)} (retrievable : (Ty.enum e).Every (Retrievable target))
    (mem : var ∈ e.variants) (wf : var.ty.wellFormed target payload = .ok true)
    (hbytes : var.ty.bytes target payload = .ok bytes) (pieces : TagPieces target var.tagger ps) :
    var.ty.FillsPadding target bytes (overlayAll ps bytes) := by
  have enclosed := retrievable.imp fun _ r => r.toEnclosed
  have inside := inside_of_tagPieces enclosed mem wf hbytes pieces
  refine ⟨(length_overlayAll inside).symm, fun i => ?_⟩
  rcases getElem?_overlayAll inside i with ⟨p, hp, hi, _⟩ | ⟨_, same⟩
  · obtain ⟨w, hw, extent⟩ := exists_of_map_extent pieces.map_extent hp
    have clear := retrievable.here.tags_clear var mem w hw i (extent ▸ hi)
    have bound : i < bytes.length := by
      have := inside p hp i hi
      omega
    have byte := List.getElem?_eq_getElem bound
    rw [uninit_of_bytes (enclosed.payload mem) wf hbytes clear byte] at byte
    exact Or.inr ⟨byte, clear⟩
  · exact Or.inl same

/-- The payload of an enum finds its padding filled where the enum does, and under the tag. -/
theorem fillsPadding_payload {e : EnumTy} {var : Variant} {bytes : List AbsByte}
    (mem : var ∈ e.variants) (tag : var.ty.FillsPadding target bytes out)
    (fill : (Ty.enum e).FillsPadding target out data) :
    var.ty.FillsPadding target bytes data := by
  refine ⟨tag.1.trans fill.1, fun i => ?_⟩
  rcases tag.2 i with same | padding
  · rcases fill.2 i with same' | ⟨blank, padding⟩
    · exact Or.inl (same'.trans same)
    · exact Or.inr ⟨same ▸ blank, fun covered => padding (.payload mem covered)⟩
  · exact Or.inr padding

/-! ## Bytes that can be read -/

/-- No size keeps bytes from standing for a value of the type: the sizes in it are numbers of bytes,
or else the bytes are known to stand for a value. -/
def Readable (target : Target) (ty : Ty) (data : List AbsByte) : Prop :=
  ty.Every Sized ∨ ∃ w, ty.decode target data = .ok (some w)

namespace Readable

theorem field {fields : List Field} {size : Int} (h : (Ty.tuple fields size).Readable target data)
    {f : Field} (hf : f ∈ fields) :
    f.ty.Readable target (Slice.read data f.offset (f.offset + f.ty.byteSize target)) := by
  obtain sized | ⟨w, decoded⟩ := h
  · exact .inl (sized.field hf)
  · obtain ⟨_, ws, -, all⟩ := decode_tuple_iff.1 decoded
    obtain ⟨x, _, part⟩ := exists_of_forall₂ all.flip hf
    exact .inr ⟨x, part⟩

theorem elem {elem : Ty} {count : Int} (h : (Ty.array elem count).Readable target data) {k : Nat}
    (hk : (k : Int) < count) : elem.Readable target
      (Slice.read data (k * elem.byteSize target) ((k + 1) * elem.byteSize target)) := by
  obtain sized | ⟨w, decoded⟩ := h
  · exact .inl sized.elem
  · obtain ⟨_, ws, -, all⟩ := decode_array_iff.1 decoded
    rw [elementRanges, List.forall₂_map_left_iff] at all
    obtain ⟨x, _, part⟩ := exists_of_forall₂ all.flip (List.mem_range.2 (show k < count.toNat by omega))
    exact .inr ⟨x, part⟩

theorem payload {e : EnumTy} (h : (Ty.enum e).Readable target data) {n : Nat} {var : Variant}
    (found : e.discriminator.decode target data = some (n : Int)) (hvar : e.variants[n]? = some var) :
    var.ty.Readable target data := by
  obtain sized | ⟨w, decoded⟩ := h
  · exact .inl (sized.payload (List.mem_of_getElem? hvar))
  · obtain ⟨_, k, other, x, found', hother, part, -⟩ := decode_enum_iff.1 decoded
    have same : k = n := by
      rw [found] at found'
      exact Int.ofNat_inj.1 (Option.some.inj found').symm
    rw [same, hvar] at hother
    obtain rfl := Option.some.inj hother
    exact .inr ⟨x, part⟩

/-- Where bytes can be read, the encoding of a value has as many as the type. -/
theorem length {ty : Ty} (h : ty.Readable target data) (enclosed : ty.Every (Enclosed target))
    (wf : ty.wellFormed target v = .ok true) (made : ty.bytes target v = .ok out) :
    (out.length : Int) = ty.byteSize target := by
  have nonneg : 0 ≤ ty.byteSize target := by
    obtain sized | ⟨w, decoded⟩ := h
    · exact byteSize_nonneg sized (enclosed.imp fun _ e => e.payloads_fill) wf
    · rw [← length_of_decode decoded]
      exact Int.natCast_nonneg _
  rw [length_of_bytes enclosed wf made]
  exact Int.toNat_of_nonneg nonneg

end Readable

end Ty

/-! ## The round trip -/

/-- What comes back of a value: no more than it was, and all of it where pointers have bytes. -/
def Value.Recovers (target : Target) (v w : Value) : Prop :=
  w.le v = true ∧ (1 ≤ target.ptrSize → w = v)

namespace Value.Recovers

theorem refl (v : Value) : v.Recovers target v :=
  ⟨le_refl v, fun _ => rfl⟩

theorem tuple {vs ws : List Value} (h : List.Forall₂ (Recovers target) vs ws) :
    (Value.tuple vs).Recovers target (.tuple ws) := by
  constructor
  · exact tuple_le_iff.2 ⟨vs, rfl, (h.imp fun _ _ r => r.1).flip⟩
  · intro width
    have same : List.Forall₂ Eq ws vs := (h.imp fun _ _ r => r.2 width).flip
    rw [List.forall₂_eq_eq_eq] at same
    rw [same]

theorem variant {d : Int} {v w : Value} (h : v.Recovers target w) :
    (Value.variant d v).Recovers target (.variant d w) := by
  constructor
  · exact variant_le_iff.2 ⟨v, rfl, h.1⟩
  · intro width
    rw [h.2 width]

end Value.Recovers

namespace Ty

variable {v : Value} {out data : List AbsByte}

/-- A value is found in its bytes, whatever the padding is filled with. -/
theorem recovers_of_fillsPadding {ty : Ty} (retrievable : ty.Every (Retrievable target))
    (wf : ty.wellFormed target v = .ok true) (h : ty.bytes target v = .ok out)
    (fill : ty.FillsPadding target out data) (readable : ty.Readable target data) :
    ∃ w, ty.decode target data = .ok (some w) ∧ v.Recovers target w := by
  have enclosed := retrievable.imp fun _ r => r.toEnclosed
  have length := readable.length enclosed wf h
  induction ty using Ty.induction generalizing v out data with
  | bool =>
      obtain ⟨b, rfl⟩ := wellFormed_bool_iff.1 wf
      obtain rfl := Except.ok.inj h
      obtain rfl := fill.eq_of_covers fun i hi => by
        obtain rfl : i = 0 := by simpa using hi
        exact .bool
      exact ⟨_, decode_bool_iff.2 ⟨b, decodeBool_eq_some_iff.2 ⟨none, rfl⟩, rfl⟩, .refl _⟩
  | int t =>
      obtain ⟨n, rfl, fits⟩ := wellFormed_int_iff.1 wf
      obtain ⟨ds, hds, rfl⟩ := bytes_int_iff.1 h
      rw [byteSize] at length
      obtain rfl := fill.eq_of_covers fun i hi => .int (by omega) (by omega)
      have signed := (IntTy.canRepresent_eq_true_iff.1 fits).2.1
      exact ⟨_, decode_int_iff.2 ⟨n, IntTy.decode_ofData hds signed, rfl⟩, .refl _⟩
  | ptr t =>
      obtain ⟨p, rfl, _, valid⟩ := wellFormed_ptr_iff.1 wf
      obtain ⟨ds, hds, rfl⟩ := bytes_ptr_iff.1 h
      rw [byteSize] at length
      obtain rfl := fill.eq_of_covers fun i hi => .ptr (by omega) (by omega)
      obtain ⟨q, decoded, addr, provenance, all⟩ := PtrTy.decode_ofData hds valid
      refine ⟨_, decode_ptr_iff.2 ⟨length, q, decoded, rfl⟩, ?_, fun width => by rw [all width]⟩
      exact Value.ptr_le_iff.2 ⟨p, rfl, addr, provenance⟩
  | tuple fields size ih =>
      obtain ⟨vs, rfl, all⟩ := wellFormed_tuple_iff.1 wf
      obtain ⟨ps, pieces, rfl⟩ := (bytes_tuple_iff all.length_eq).1 h
      have parts : List.Forall₂ (fun (f : Field) w => ∃ x, f.ty.decode target
          (Slice.read data f.offset (f.offset + f.ty.byteSize target)) = .ok (some x) ∧
            w.Recovers target x) fields vs := by
        refine pieces.forall₂ all ?_
        intro f hf w p hp wf start hbytes
        have inner := readable.field hf
        have size := inner.length (enclosed.field hf) wf hbytes
        have part := fillsPadding_field retrievable all pieces fill hf hp start size
        exact ih f hf (retrievable.field hf) wf hbytes part inner (enclosed.field hf) size
      obtain ⟨ws, decoded, recovered⟩ := exists_forall₂ parts fun _ _ _ part => part
      exact ⟨.tuple ws, decode_tuple_iff.2 ⟨fill.1 ▸ length, ws, rfl, decoded⟩, .tuple recovered⟩
  | array elem count ih =>
      obtain ⟨vs, rfl, number, all⟩ := wellFormed_array_iff.1 wf
      obtain ⟨bss, each, rfl⟩ := bytes_array_iff.1 h
      have inner {k : Nat} (hk : k < bss.length) := readable.elem (k := k) (by
        rw [← number, each.length_eq]
        omega)
      have same : ∀ bs ∈ bss, (bs.length : Int) = elem.byteSize target := by
        intro bs hbs
        obtain ⟨w, hw, hbytes⟩ := exists_of_forall₂ each hbs
        exact (inner (List.length_pos_of_mem hbs)).length enclosed.elem (all w hw) hbytes
      have cut : elementRanges (elem.byteSize target) count bss.flatten = bss := by
        rw [← number, each.length_eq]
        exact elementRanges_flatten same
      -- Both the encodings of the elements and what they are read from are slices, at the same
      -- positions of the two lists.
      have members := (List.forall₂_and_left vs bss).2 ⟨all, each⟩
      rw [← cut, elementRanges, List.forall₂_map_right_iff] at members
      obtain ⟨ws, decoded, recovered⟩ := exists_forall₂ members.flip fun k hk w made => by
        obtain ⟨wf, hbytes⟩ := made
        have inRange : (k : Int) < count := by
          rw [List.mem_range] at hk
          omega
        have inner := readable.elem inRange
        have size := inner.length enclosed.elem wf hbytes
        have part := fillsPadding_elem length fill (size ▸ Int.natCast_nonneg _) inRange
        exact ih retrievable.elem wf hbytes part inner enclosed.elem size
      refine ⟨.tuple ws, decode_array_iff.2 ⟨fill.1 ▸ length, ws, rfl, ?_⟩, .tuple recovered⟩
      rwa [elementRanges, List.forall₂_map_left_iff]
  | union u _ =>
      obtain ⟨bss, rfl, fit⟩ := wellFormed_union_iff.1 wf
      rw [bytes_union fit] at h
      obtain rfl := Except.ok.inj h
      refine ⟨_, decode_union_iff.2 ⟨fill.1 ▸ length, congrArg Value.union ?_⟩, .refl _⟩
      rw [← List.forall₂_eq_eq_eq, List.forall₂_map_right_iff]
      refine (forall₂_of_chunkPieces fit ?_).flip
      intro c hc bs size hp
      exact (read_chunk retrievable.here fit fill hc size hp).symm
  | enum e ih _ =>
      obtain ⟨n, var, payload, rfl, hvar, wf⟩ := wellFormed_enum_iff.1 wf
      obtain ⟨bytes, ps, hbytes, pieces, rfl⟩ := (bytes_enum_iff hvar).1 h
      have mem := List.mem_of_getElem? hvar
      have tagged := fillsPadding_tag retrievable mem wf hbytes pieces
      have found := retrievable.here.tags_read n var payload bytes _ hvar wf
        (encode_eq_ok_iff.2 ⟨wf, hbytes⟩) (writeTag_eq_ok_iff.2 ⟨ps, pieces, rfl⟩)
      -- The tree is walked over filled bytes, which read the same where it has read the encoding.
      have found' := Discriminator.decode_of_leAll fill.leAll found
      have inner := readable.payload found' hvar
      obtain ⟨w, decoded, recovered⟩ := ih var mem (retrievable.payload mem) wf hbytes
        (fillsPadding_payload mem tagged fill) inner (enclosed.payload mem)
        (inner.length (enclosed.payload mem) wf hbytes)
      exact ⟨_, decode_enum_iff.2 ⟨fill.1 ▸ length, n, var, w, found', hvar, decoded, rfl⟩,
        .variant recovered⟩

/-- A value is found in its bytes as it was, where pointers have bytes. -/
theorem decode_of_fillsPadding {ty : Ty} (width : 1 ≤ target.ptrSize)
    (legible : ty.Every (Legible target)) (wf : ty.wellFormed target v = .ok true)
    (h : ty.bytes target v = .ok out) (fill : ty.FillsPadding target out data) :
    ty.decode target data = .ok (some v) := by
  obtain ⟨w, decoded, -, all⟩ := recovers_of_fillsPadding
    (legible.imp fun _ l => l.retrievable) wf h fill (.inl (legible.imp fun _ l => l.sized))
  rwa [all width] at decoded

/-- Every value of a type has bytes, and they stand for it. -/
def Restores (target : Target) (ty : Ty) : Prop :=
  ∀ v, ty.wellFormed target v = .ok true →
    ∃ bytes, ty.encode target v = .ok bytes ∧ ty.decode target bytes = .ok (some v)

theorem restores_of_sound {ty : Ty} (width : 1 ≤ target.ptrSize) (sound : ty.Every (Sound target)) :
    ty.Restores target := by
  intro v wf
  obtain ⟨bytes, made⟩ := exists_bytes (sound.imp fun _ s => s.tags_fit) wf
  refine ⟨bytes, encode_eq_ok_iff.2 ⟨wf, made⟩, ?_⟩
  exact decode_of_fillsPadding width (sound.imp fun _ s => s.legible) wf made (.refl ty bytes)

/-- At a sound layout, encoding a well-formed value succeeds, and decoding gives the value back. -/
theorem decode_encode_of_sound {ty : Ty} (width : 1 ≤ target.ptrSize)
    (sound : ty.Every (Sound target)) (wf : ty.wellFormed target v = .ok true) :
    ∃ bytes, ty.encode target v = .ok bytes ∧ ty.decode target bytes = .ok (some v) := by
  obtain ⟨bytes, hbytes⟩ := exists_bytes (sound.imp fun _ s => s.tags_fit) wf
  exact ⟨bytes, encode_eq_ok_iff.2 ⟨wf, hbytes⟩,
    decode_of_fillsPadding width (sound.imp fun _ s => s.legible) wf hbytes (.refl ty bytes)⟩

/-- A reference with its provenance comes back, from a variant that has no tag. -/
theorem decode_encode_optionRef :
    ∃ bytes, (optionRef ⟨2, .big⟩).encode ⟨2, .big⟩ (.nonnull ⟨0x1000, some ⟨3⟩⟩) = .ok bytes ∧
      (optionRef ⟨2, .big⟩).decode ⟨2, .big⟩ bytes = .ok (some (.nonnull ⟨0x1000, some ⟨3⟩⟩)) :=
  decode_encode_of_sound (by decide) (sound_nullable (by decide) rfl) rfl

/-- Sizes have to be asked for. A tuple or union of negative size is encoded in no bytes, which are not
as many as its size says, and so they stand for no value. -/
theorem decode_encode_of_negative_size :
    ((Ty.tuple [] (-1)).Every (fun t => t.Tidy .standard ∧ t.Counted ∧ t.TagsClear .standard ∧
        t.TagsRead .standard) ∧
      (Ty.tuple [] (-1)).wellFormed .standard (.tuple []) = .ok true ∧
      (Ty.tuple [] (-1)).encode .standard (.tuple []) = .ok [] ∧
      (Ty.tuple [] (-1)).decode .standard [] = .ok none) ∧
    ((Ty.union ⟨[], [], -1⟩).Every (fun t => t.Tidy .standard ∧ t.Counted ∧
        t.TagsClear .standard ∧ t.TagsRead .standard) ∧
      (Ty.union ⟨[], [], -1⟩).wellFormed .standard (.union []) = .ok true ∧
      (Ty.union ⟨[], [], -1⟩).encode .standard (.union []) = .ok [] ∧
      (Ty.union ⟨[], [], -1⟩).decode .standard [] = .ok none) := by
  refine ⟨⟨.intro ⟨tidy_tuple_iff.2 ⟨?_, ?_⟩, trivial, trivial, trivial⟩ ?_, rfl, rfl, rfl⟩,
    ⟨.intro ⟨tidy_union_iff.2 ⟨?_, ?_⟩, trivial, trivial, trivial⟩ ?_, rfl, rfl, rfl⟩⟩
  · simp [FieldsInside]
  · simp [FieldsApart]
  · simp [components]
  · simp [ChunksInside]
  · simp [ChunksApart]
  · simp [components]

end Ty

end AbstractMachine
