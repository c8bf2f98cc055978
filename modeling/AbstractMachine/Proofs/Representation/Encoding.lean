/-
# AbstractMachine.Proofs.Representation.Encoding — which bytes an encoding has

A well-formed value has bytes as soon as the tags of all enums in its type can be written
(`exists_bytes`): whatever else is wrong with a layout, encoding does not fail for it. If the layout
also keeps every component inside the type, there are as many bytes as the type has
(`length_of_bytes`), and those that the type does not cover are uninitialised (`uninit_of_bytes`).
Components may still share bytes. A type of negative size has no bytes, and its components then have
none either, so that their ranges are to be read as empty ones (`Chunk.clip`).

The bytes of an array are those of its elements in a row, and cutting them apart again gives the
bytes of the elements back.
-/
import AbstractMachine.Proofs.Soundness
import AbstractMachine.Proofs.Representation.Formers
import AbstractMachine.Proofs.Representation.Scalars

namespace AbstractMachine

open Slice

variable {target : Target}

/-! ## Where pieces lie -/

/-- The pieces of fields lie where the fields do, if each has the bytes that its type has. -/
theorem FieldPieces.map_extent {fields : List Field} {vs : List Value} {ps : List (Piece AbsByte)}
    (pieces : FieldPieces target fields vs ps)
    (length : List.Forall₂ (fun (f : Field) v => ∀ bytes, f.ty.bytes target v = .ok bytes →
      bytes.length = (f.ty.byteSize target).toNat) fields vs) :
    ps.map Piece.extent = fields.map fun f => (f.extent target).clip := by
  induction pieces with
  | nil => rfl
  | cons hv _ ih =>
      obtain _ | ⟨head, tail⟩ := length
      rw [List.map_cons, List.map_cons, ih tail, Piece.extent, Chunk.clip, Field.extent, head _ hv]

theorem TagPieces.map_extent {tagger : List TagWrite} {ps : List (Piece AbsByte)}
    (pieces : TagPieces target tagger ps) :
    ps.map Piece.extent = tagger.map TagWrite.extent := by
  induction pieces with
  | nil => rfl
  | cons write _ ih =>
      obtain ⟨start, ds, hds, content⟩ := write
      rw [List.map_cons, List.map_cons, ih, Piece.extent, TagWrite.extent, start, content,
        AbsByte.length_ofData, Endian.length_of_encode hds]

/-- Each of the pieces of fields is made by a field and its value. -/
theorem FieldPieces.exists_field {R : Field → Value → Prop} {fields : List Field}
    {vs : List Value} {ps : List (Piece AbsByte)} (pieces : FieldPieces target fields vs ps)
    (all : List.Forall₂ R fields vs) {p : Piece AbsByte} (hp : p ∈ ps) :
    ∃ f ∈ fields, ∃ v, R f v ∧ p.start = f.offset ∧ f.ty.bytes target v = .ok p.content := by
  induction pieces with
  | nil => simp at hp
  | @cons f v bytes fields vs ps hv _ ih =>
      obtain _ | ⟨head, tail⟩ := all
      rcases List.mem_cons.1 hp with rfl | hp
      · exact ⟨f, List.mem_cons_self, v, head, rfl, hv⟩
      · obtain ⟨g, hg, made⟩ := ih tail hp
        exact ⟨g, List.mem_cons_of_mem f hg, made⟩

theorem map_extent_chunkPieces {cs : List Chunk} {bss : List (List AbsByte)}
    (fit : List.Forall₂ (fun (c : Chunk) bs => (bs.length : Int) = c.size) cs bss) :
    (chunkPieces cs bss).map Piece.extent = cs.map id := by
  induction fit with
  | nil => rfl
  | cons size _ ih =>
      rw [chunkPieces, List.zipWith_cons_cons, List.map_cons, Piece.extent, size]
      exact congrArg _ ih

/-- Each piece covers one of the ranges. -/
theorem exists_of_map_extent {α β : Type} {ps : List (Piece α)} {xs : List β} {extent : β → Chunk}
    (same : ps.map Piece.extent = xs.map extent) {p : Piece α} (hp : p ∈ ps) :
    ∃ x ∈ xs, extent x = p.extent := by
  have image : p.extent ∈ xs.map extent := same ▸ List.mem_map_of_mem hp
  exact List.mem_map.1 image

/-- Pieces lie inside a buffer if the ranges that they cover do. -/
theorem inside_of_map_extent {α β : Type} {ps : List (Piece α)} {xs : List β} {extent : β → Chunk}
    {size : Int} (same : ps.map Piece.extent = xs.map extent)
    (inside : ∀ x ∈ xs, (extent x).Inside size) : ∀ p ∈ ps, p.extent.Inside size := by
  intro p hp
  obtain ⟨x, hx, eq⟩ := exists_of_map_extent same hp
  rw [← eq]
  exact inside x hx

/-- Pieces are apart if the ranges that they cover are. -/
theorem apart_of_map_extent {α β : Type} {ps : List (Piece α)} {xs : List β} {extent : β → Chunk}
    (same : ps.map Piece.extent = xs.map extent)
    (apart : xs.Pairwise fun x y => (extent x).Apart (extent y)) :
    ps.Pairwise fun p q => p.extent.Apart q.extent := by
  rw [← List.pairwise_map (R := Chunk.Apart)] at apart ⊢
  rwa [same]

/-! ## The elements of an array -/

/-- The elements of an array are the first bytes, and the elements of the rest. -/
theorem elementRanges_succ (size n : Nat) (data : List AbsByte) :
    elementRanges size ((n + 1 : Nat) : Int) data =
      data.take size :: elementRanges size n (data.drop size) := by
  have range (k : Nat) (xs : List AbsByte) :
      Slice.read xs (k * (size : Int)) ((k + 1) * size) = (xs.drop (k * size)).take size := by
    have stop : ((k : Int) + 1) * size = (k * size : Nat) + (size : Nat) := by
      rw [Int.add_mul, Int.one_mul, Int.natCast_mul]
    rw [stop, ← Int.natCast_mul, read_eq xs (by omega) (by omega), Int.toNat_natCast,
      Int.toNat_natCast]
  simp only [elementRanges, range, Int.toNat_natCast, List.range_succ_eq_map, List.map_cons,
    List.map_map, Nat.zero_mul, List.drop_zero, List.cons.injEq, true_and]
  apply List.map_congr_left
  intro k _
  rw [Function.comp_apply, List.drop_drop, Nat.succ_mul, Nat.add_comm]

/-- An element lies inside the array. -/
theorem inside_elem {size count : Int} {k : Nat} (nonneg : 0 ≤ size) (hk : (k : Int) < count) :
    (Chunk.mk (k * size) size).Inside (size * count) := by
  intro i hi
  rw [Chunk.mem_iff] at hi
  have low : 0 ≤ k * size := Int.mul_nonneg (Int.natCast_nonneg k) nonneg
  have high : (k + 1) * size ≤ count * size := Int.mul_le_mul_of_nonneg_right hk nonneg
  rw [Int.add_mul, Int.one_mul, Int.mul_comm count] at high
  dsimp only at hi
  omega

/-- Cutting elements of one size that stand in a row gives the elements back. -/
theorem elementRanges_flatten {size : Int} {bss : List (List AbsByte)}
    (same : ∀ bs ∈ bss, (bs.length : Int) = size) :
    elementRanges size bss.length bss.flatten = bss := by
  induction bss with
  | nil => rfl
  | cons bs bss ih =>
      have rest := ih fun bs h => same bs (List.mem_cons_of_mem _ h)
      obtain rfl := same bs List.mem_cons_self
      rw [List.length_cons, elementRanges_succ, List.flatten_cons, List.take_left, List.drop_left,
        rest]

/-- Cutting bytes into elements loses none, if their number is right. -/
theorem flatten_elementRanges {size count : Int} {data : List AbsByte} (counted : 0 ≤ count)
    (same : (data.length : Int) = size * count) :
    (elementRanges size count data).flatten = data := by
  obtain ⟨n, rfl⟩ := Int.eq_ofNat_of_zero_le counted
  induction n generalizing data with
  | zero =>
      obtain rfl : data = [] := List.length_eq_zero_iff.1 (by simpa using same)
      rfl
  | succ n ih =>
      have positive : 0 < ((n + 1 : Nat) : Int) := by omega
      have nonneg : 0 ≤ size := Int.nonneg_of_mul_nonneg_left (by omega) positive
      obtain ⟨size, rfl⟩ := Int.eq_ofNat_of_zero_le nonneg
      have rest : data.length = size * n + size := by
        rw [← Nat.mul_succ]
        exact_mod_cast same
      rw [elementRanges_succ, List.flatten_cons, ih (by omega), List.take_append_drop]
      rw [List.length_drop, rest, Nat.add_sub_cancel, Int.natCast_mul]

/-- A number of ranges of negative size is as good as that many empty ones. -/
theorem toNat_mul_natCast (size : Int) (n : Nat) : (size * n).toNat = size.toNat * n := by
  rcases Int.le_total 0 size with nonneg | neg
  · obtain ⟨k, rfl⟩ := Int.eq_ofNat_of_zero_le nonneg
    rw [← Int.natCast_mul, Int.toNat_natCast, Int.toNat_natCast]
  · have product := Int.mul_nonpos_of_nonpos_of_nonneg neg (Int.natCast_nonneg n)
    rw [Int.toNat_of_nonpos product, Int.toNat_of_nonpos neg, Nat.zero_mul]

theorem length_flatten_of_forall {size : Int} {bss : List (List AbsByte)}
    (same : ∀ bs ∈ bss, (bs.length : Int) = size) :
    (bss.flatten.length : Int) = size * bss.length := by
  induction bss with
  | nil => simp
  | cons bs bss ih =>
      have rest := ih fun bs h => same bs (List.mem_cons_of_mem _ h)
      have head := same bs List.mem_cons_self
      rw [List.flatten_cons, List.length_append, List.length_cons, Int.natCast_add, rest, head,
        Int.natCast_add, Int.mul_add, Int.add_comm]
      simp

/-- Every position of elements in a row is a position of one of them. -/
theorem exists_of_getElem?_flatten {size : Int} {i : Nat} {bss : List (List AbsByte)} {x : AbsByte}
    (same : ∀ bs ∈ bss, (bs.length : Int) = size) (h : bss.flatten[i]? = some x) :
    ∃ (k j : Nat) (bs : List AbsByte),
      (i : Int) = k * size + j ∧ bss[k]? = some bs ∧ bs[j]? = some x := by
  induction bss generalizing i with
  | nil => simp at h
  | cons bs bss ih =>
      have head := same bs List.mem_cons_self
      rw [List.flatten_cons] at h
      by_cases first : i < bs.length
      · rw [List.getElem?_append_left first] at h
        exact ⟨0, i, bs, by simp, rfl, h⟩
      · rw [List.getElem?_append_right (by omega)] at h
        obtain ⟨k, j, cs, place, hk, hj⟩ := ih (fun bs h => same bs (List.mem_cons_of_mem _ h)) h
        refine ⟨k + 1, j, cs, ?_, hk, hj⟩
        rw [Int.natCast_add, Int.add_mul]
        omega

/-! ## Every well-formed value has bytes -/

theorem exists_tagPieces (target : Target) {tagger : List TagWrite}
    (fit : ∀ w ∈ tagger, w.ty.canRepresent w.value = .ok true) :
    ∃ ps, TagPieces target tagger ps := by
  induction tagger with
  | nil => exact ⟨[], .nil⟩
  | cons w tagger ih =>
      obtain ⟨ps, pieces⟩ := ih fun w h => fit w (List.mem_cons_of_mem _ h)
      obtain ⟨ds, hds⟩ := IntTy.exists_encode target (fit w List.mem_cons_self)
      exact ⟨⟨w.offset, AbsByte.ofData ds none⟩ :: ps, .cons ⟨rfl, ds, hds, rfl⟩ pieces⟩

theorem exists_fieldPieces {fields : List Field} {vs : List Value}
    (h : List.Forall₂ (fun (f : Field) v => ∃ bytes, f.ty.bytes target v = .ok bytes) fields vs) :
    ∃ ps, FieldPieces target fields vs ps := by
  induction h with
  | nil => exact ⟨[], .nil⟩
  | cons head _ ih =>
      obtain ⟨bytes, hbytes⟩ := head
      obtain ⟨ps, pieces⟩ := ih
      exact ⟨_, .cons hbytes pieces⟩

namespace Ty

variable {v : Value} {out : List AbsByte}

/-- A well-formed value has bytes, if the tags in its type can be written. -/
theorem exists_bytes {ty : Ty} (fit : ty.Every TagsFit) (wf : ty.wellFormed target v = .ok true) :
    ∃ out, ty.bytes target v = .ok out := by
  induction ty using Ty.induction generalizing v with
  | bool =>
      obtain ⟨b, rfl⟩ := wellFormed_bool_iff.1 wf
      exact ⟨_, rfl⟩
  | int t =>
      obtain ⟨n, rfl, fits⟩ := wellFormed_int_iff.1 wf
      obtain ⟨ds, hds⟩ := IntTy.exists_encode target fits
      exact ⟨_, bytes_int_iff.2 ⟨ds, hds, rfl⟩⟩
  | ptr t =>
      obtain ⟨p, rfl, bounds, _⟩ := wellFormed_ptr_iff.1 wf
      obtain ⟨ds, hds⟩ := IntTy.exists_encode target bounds
      exact ⟨_, bytes_ptr_iff.2 ⟨ds, hds, rfl⟩⟩
  | tuple fields size ih =>
      obtain ⟨vs, rfl, all⟩ := wellFormed_tuple_iff.1 wf
      have each : List.Forall₂ (fun (f : Field) v => ∃ bytes, f.ty.bytes target v = .ok bytes)
          fields vs := by
        refine (forall₂_mem all).imp fun f v h => ?_
        exact ih f h.1 (fit.field h.1) h.2
      obtain ⟨ps, pieces⟩ := exists_fieldPieces each
      exact ⟨_, (bytes_tuple_iff all.length_eq).2 ⟨ps, pieces, rfl⟩⟩
  | array elem count ih =>
      obtain ⟨vs, rfl, _, all⟩ := wellFormed_array_iff.1 wf
      choose! encode hencode using fun v hv => ih fit.elem (all v hv)
      refine ⟨_, bytes_array_iff.2 ⟨vs.map encode, ?_, rfl⟩⟩
      rw [List.forall₂_map_right_iff, List.forall₂_same]
      exact hencode
  | union u _ =>
      obtain ⟨bss, rfl, fit⟩ := wellFormed_union_iff.1 wf
      exact ⟨_, bytes_union fit⟩
  | enum e ih _ =>
      obtain ⟨n, var, payload, rfl, hvar, wf⟩ := wellFormed_enum_iff.1 wf
      have mem := List.mem_of_getElem? hvar
      obtain ⟨bytes, hbytes⟩ := ih var mem (fit.payload mem) wf
      -- Here alone an integer is written that no well-formed value vouches for.
      obtain ⟨ps, pieces⟩ := exists_tagPieces target (fit.here var mem)
      exact ⟨_, (bytes_enum_iff hvar).2 ⟨bytes, ps, hbytes, pieces, rfl⟩⟩

/-! ## As many bytes as the type has -/

theorem inside_of_chunkPieces {u : UnionTy} {bss : List (List AbsByte)}
    (inside : (Ty.union u).ChunksInside)
    (fit : List.Forall₂ (fun (c : Chunk) bs => (bs.length : Int) = c.size) u.chunks bss) :
    ∀ p ∈ chunkPieces u.chunks bss, p.extent.Inside (AbsByte.blank u.size).length := by
  rw [AbsByte.length_blank]
  exact inside_of_map_extent (map_extent_chunkPieces fit) fun c hc => (inside c hc).toNat

/-- A well-formed value has as many bytes as its type, and none where the size is negative. -/
theorem length_of_bytes {ty : Ty} (enclosed : ty.Every (Enclosed target))
    (wf : ty.wellFormed target v = .ok true) (h : ty.bytes target v = .ok out) :
    out.length = (ty.byteSize target).toNat := by
  induction ty using Ty.induction generalizing v out with
  | bool =>
      obtain ⟨b, rfl⟩ := wellFormed_bool_iff.1 wf
      obtain rfl := Except.ok.inj h
      rfl
  | int t =>
      obtain ⟨n, rfl, _⟩ := wellFormed_int_iff.1 wf
      obtain ⟨ds, hds, rfl⟩ := bytes_int_iff.1 h
      show (AbsByte.ofData ds none).length = t.size.toNat
      rw [AbsByte.length_ofData, ← Endian.length_of_encode hds, Int.toNat_natCast]
  | ptr t =>
      obtain ⟨p, rfl, _⟩ := wellFormed_ptr_iff.1 wf
      obtain ⟨ds, hds, rfl⟩ := bytes_ptr_iff.1 h
      show (AbsByte.ofData ds p.provenance).length = target.ptrSize.toNat
      rw [AbsByte.length_ofData, ← Endian.length_of_encode hds, Int.toNat_natCast]
  | tuple fields size ih =>
      obtain ⟨vs, rfl, all⟩ := wellFormed_tuple_iff.1 wf
      obtain ⟨ps, pieces, rfl⟩ := (bytes_tuple_iff all.length_eq).1 h
      have same := pieces.map_extent <| (forall₂_mem all).imp fun f v h bytes hbytes =>
        ih f h.1 (enclosed.field h.1) h.2 hbytes
      have inside := inside_of_map_extent same fun f hf =>
        (enclosed.here.fields_inside f hf).clip
      show (overlayAll ps (AbsByte.blank size)).length = size.toNat
      rw [length_overlayAll (by rwa [AbsByte.length_blank]), AbsByte.length_blank]
  | array elem count ih =>
      obtain ⟨vs, rfl, number, all⟩ := wellFormed_array_iff.1 wf
      obtain ⟨bss, each, rfl⟩ := bytes_array_iff.1 h
      have same : ∀ bs ∈ bss, (bs.length : Int) = (elem.byteSize target).toNat := by
        intro bs hbs
        obtain ⟨w, hw, hbytes⟩ := exists_of_forall₂ each hbs
        rw [ih enclosed.elem (all w hw) hbytes]
      have row := length_flatten_of_forall same
      show bss.flatten.length = (elem.byteSize target * count).toNat
      rw [← number, toNat_mul_natCast, each.length_eq]
      exact_mod_cast row
  | union u _ =>
      obtain ⟨bss, rfl, fit⟩ := wellFormed_union_iff.1 wf
      rw [bytes_union fit] at h
      obtain rfl := Except.ok.inj h
      rw [length_overlayAll (inside_of_chunkPieces enclosed.here.chunks_inside fit)]
      exact AbsByte.length_blank u.size
  | enum e ih _ =>
      obtain ⟨n, var, payload, rfl, hvar, wf⟩ := wellFormed_enum_iff.1 wf
      obtain ⟨bytes, ps, hbytes, pieces, rfl⟩ := (bytes_enum_iff hvar).1 h
      have mem := List.mem_of_getElem? hvar
      have length : bytes.length = e.size.toNat := by
        rw [ih var mem (enclosed.payload mem) wf hbytes, enclosed.here.payloads_fill var mem]
      -- The payload has all the bytes of the enum, and the tag lies inside them.
      have inside := inside_of_map_extent pieces.map_extent fun w hw =>
        (enclosed.here.tags_inside var mem w hw).toNat
      show (overlayAll ps bytes).length = e.size.toNat
      rw [length_overlayAll (by rwa [length]), length]

/-- A type that has values has a size that is no negative number, if its tuples and unions have. -/
theorem byteSize_nonneg {ty : Ty} (sized : ty.Every Sized) (fill : ty.Every (PayloadsFill target))
    (wf : ty.wellFormed target v = .ok true) : 0 ≤ ty.byteSize target := by
  induction ty using Ty.induction generalizing v with
  | bool => exact (by decide : (0 : Int) ≤ 1)
  | int t =>
      obtain ⟨n, rfl, fits⟩ := wellFormed_int_iff.1 wf
      exact (IntTy.canRepresent_eq_true_iff.1 fits).1
  | ptr t =>
      obtain ⟨p, rfl, bounds, _⟩ := wellFormed_ptr_iff.1 wf
      exact (IntTy.canRepresent_eq_true_iff.1 bounds).1
  | tuple => exact sized.here
  | array elem count ih =>
      obtain ⟨vs, rfl, number, all⟩ := wellFormed_array_iff.1 wf
      rw [byteSize, ← number]
      cases vs with
      | nil => simp
      | cons w ws =>
          have part := ih sized.elem fill.elem (all w List.mem_cons_self)
          exact Int.mul_nonneg part (Int.natCast_nonneg _)
  | union => exact sized.here
  | enum e ih _ =>
      obtain ⟨n, var, payload, rfl, hvar, wf⟩ := wellFormed_enum_iff.1 wf
      have mem := List.mem_of_getElem? hvar
      rw [byteSize, ← fill.here var mem]
      exact ih var mem (sized.payload mem) (fill.payload mem) wf

/-- A well-formed value has as many bytes as its type. -/
theorem length_bytes {ty : Ty} (laid : ty.Every (LaidOut target))
    (wf : ty.wellFormed target v = .ok true) (h : ty.bytes target v = .ok out) :
    (out.length : Int) = ty.byteSize target := by
  have nonneg := byteSize_nonneg (laid.imp fun _ l => l.sized)
    (laid.imp fun _ l => l.payloads_fill) wf
  rw [length_of_bytes (laid.imp fun _ l => l.enclosed) wf h]
  exact Int.toNat_of_nonneg nonneg

/-- The pieces of a tuple lie where its fields do. -/
theorem map_extent_fieldPieces {fields : List Field} {size : Int} {vs : List Value}
    {ps : List (Piece AbsByte)} (enclosed : (Ty.tuple fields size).Every (Enclosed target))
    (all : List.Forall₂ (fun (f : Field) v => f.ty.wellFormed target v = .ok true) fields vs)
    (pieces : FieldPieces target fields vs ps) :
    ps.map Piece.extent = fields.map fun f => (f.extent target).clip := by
  refine pieces.map_extent ((forall₂_mem all).imp fun f v h bytes hbytes => ?_)
  exact length_of_bytes (enclosed.field h.1) h.2 hbytes

theorem inside_of_fieldPieces {fields : List Field} {size : Int} {vs : List Value}
    {ps : List (Piece AbsByte)} (enclosed : (Ty.tuple fields size).Every (Enclosed target))
    (all : List.Forall₂ (fun (f : Field) v => f.ty.wellFormed target v = .ok true) fields vs)
    (pieces : FieldPieces target fields vs ps) :
    ∀ p ∈ ps, p.extent.Inside (AbsByte.blank size).length := by
  rw [AbsByte.length_blank]
  exact inside_of_map_extent (map_extent_fieldPieces enclosed all pieces) fun f hf =>
    (enclosed.here.fields_inside f hf).clip

theorem length_of_arrayBytes {elem : Ty} {vs : List Value} {bss : List (List AbsByte)}
    (enclosed : elem.Every (Enclosed target)) (all : ∀ v ∈ vs, elem.wellFormed target v = .ok true)
    (each : List.Forall₂ (fun v bs => elem.bytes target v = .ok bs) vs bss) :
    ∀ bs ∈ bss, bs.length = (elem.byteSize target).toNat := by
  intro bs hbs
  obtain ⟨w, hw, hbytes⟩ := exists_of_forall₂ each hbs
  exact length_of_bytes enclosed (all w hw) hbytes

/-- The payload of an enum has as many bytes as the enum. -/
theorem length_payload {e : EnumTy} {var : Variant} {payload : Value} {bytes : List AbsByte}
    (enclosed : (Ty.enum e).Every (Enclosed target)) (mem : var ∈ e.variants)
    (wf : var.ty.wellFormed target payload = .ok true)
    (hbytes : var.ty.bytes target payload = .ok bytes) : bytes.length = e.size.toNat := by
  rw [length_of_bytes (enclosed.payload mem) wf hbytes, enclosed.here.payloads_fill var mem]

theorem inside_of_tagPieces {e : EnumTy} {var : Variant} {payload : Value} {bytes : List AbsByte}
    {ps : List (Piece AbsByte)} (enclosed : (Ty.enum e).Every (Enclosed target))
    (mem : var ∈ e.variants) (wf : var.ty.wellFormed target payload = .ok true)
    (hbytes : var.ty.bytes target payload = .ok bytes) (pieces : TagPieces target var.tagger ps) :
    ∀ p ∈ ps, p.extent.Inside bytes.length := by
  rw [length_payload enclosed mem wf hbytes]
  exact inside_of_map_extent pieces.map_extent fun w hw =>
    (enclosed.here.tags_inside var mem w hw).toNat

/-! ## Padding -/

/-- The bytes of an encoding that the type does not cover are uninitialised. -/
theorem uninit_of_bytes {ty : Ty} (enclosed : ty.Every (Enclosed target))
    (wf : ty.wellFormed target v = .ok true) (h : ty.bytes target v = .ok out) {i : Nat}
    {x : AbsByte} (padding : ¬ ty.Covers target i) (hx : out[i]? = some x) : x = .uninit := by
  have bound := (List.getElem?_eq_some_iff.1 hx).1
  have length := length_of_bytes enclosed wf h
  -- A scalar covers all of its bytes, and so has no padding to look at.
  induction ty using Ty.induction generalizing v out i with
  | bool =>
      obtain rfl : i = 0 := by simp only [byteSize] at length; omega
      exact absurd .bool padding
  | int t =>
      rw [byteSize] at length
      exact absurd (.int (by omega) (by omega)) padding
  | ptr t =>
      rw [byteSize] at length
      exact absurd (.ptr (by omega) (by omega)) padding
  | tuple fields size ih =>
      obtain ⟨vs, rfl, all⟩ := wellFormed_tuple_iff.1 wf
      obtain ⟨ps, pieces, rfl⟩ := (bytes_tuple_iff all.length_eq).1 h
      have inside := inside_of_fieldPieces enclosed all pieces
      -- Fields may share the byte. Whichever is written last, the byte is padding of it too.
      rcases getElem?_overlayAll inside i with ⟨p, hp, hi, here⟩ | ⟨_, here⟩
      · obtain ⟨f, hf, w, wf, start, hbytes⟩ := pieces.exists_field all hp
        rw [here] at hx
        have place : f.offset + ((i - p.start).toNat : Int) = i := by
          rw [Chunk.mem_iff, Piece.extent] at hi
          simp only at hi
          omega
        have clear : ¬ f.ty.Covers target (i - p.start).toNat := by
          intro covered
          exact padding (place ▸ .field hf covered)
        exact ih f hf (enclosed.field hf) wf hbytes clear hx (List.getElem?_eq_some_iff.1 hx).1
          (length_of_bytes (enclosed.field hf) wf hbytes)
      · rw [here] at hx
        exact AbsByte.eq_uninit_of_getElem?_blank hx
  | array elem count ih =>
      obtain ⟨vs, rfl, number, all⟩ := wellFormed_array_iff.1 wf
      obtain ⟨bss, each, rfl⟩ := bytes_array_iff.1 h
      have same := length_of_arrayBytes enclosed.elem all each
      obtain ⟨k, j, bs, place, hk, hj⟩ :=
        exists_of_getElem?_flatten (fun bs h => congrArg Nat.cast (same bs h)) hx
      obtain ⟨w, hw, hbytes⟩ := exists_of_forall₂ each (List.mem_of_getElem? hk)
      have inRange : (k : Int) < count := by
        have := (List.getElem?_eq_some_iff.1 hk).1
        rw [← number, each.length_eq]
        omega
      -- an element with a byte at `j` has a size
      have sized : ((elem.byteSize target).toNat : Int) = elem.byteSize target := by
        have := (List.getElem?_eq_some_iff.1 hj).1
        rw [same bs (List.mem_of_getElem? hk)] at this
        omega
      rw [sized] at place
      have clear : ¬ elem.Covers target j := by
        intro covered
        exact padding (place ▸ .elem (by omega) inRange covered)
      exact ih enclosed.elem (all w hw) hbytes clear hj (List.getElem?_eq_some_iff.1 hj).1
        (length_of_bytes enclosed.elem (all w hw) hbytes)
  | union u _ =>
      obtain ⟨bss, rfl, fit⟩ := wellFormed_union_iff.1 wf
      rw [bytes_union fit] at h
      obtain rfl := Except.ok.inj h
      rcases getElem?_overlayAll (inside_of_chunkPieces enclosed.here.chunks_inside fit) i with
        ⟨p, hp, hi, _⟩ | ⟨_, here⟩
      · obtain ⟨c, hc, same⟩ := exists_of_map_extent (map_extent_chunkPieces fit) hp
        rw [← same] at hi
        exact absurd (.chunk hc hi) padding
      · rw [here] at hx
        exact AbsByte.eq_uninit_of_getElem?_blank hx
  | enum e ih _ =>
      obtain ⟨n, var, payload, rfl, hvar, wf⟩ := wellFormed_enum_iff.1 wf
      obtain ⟨bytes, ps, hbytes, pieces, rfl⟩ := (bytes_enum_iff hvar).1 h
      have mem := List.mem_of_getElem? hvar
      rcases getElem?_overlayAll (inside_of_tagPieces enclosed mem wf hbytes pieces) i with
        ⟨p, hp, hi, _⟩ | ⟨_, here⟩
      · obtain ⟨w, hw, same⟩ := exists_of_map_extent pieces.map_extent hp
        exact absurd (.tag mem hw (same ▸ hi)) padding
      · rw [here] at hx
        have clear : ¬ var.ty.Covers target i := by
          intro covered
          exact padding (.payload mem covered)
        exact ih var mem (enclosed.payload mem) wf hbytes clear hx (List.getElem?_eq_some_iff.1 hx).1
          (length_of_bytes (enclosed.payload mem) wf hbytes)

/-! ## Tags that say no more than the bytes -/

/-- A tag is below the bytes that it was found in if each of its writes is, where it goes. -/
theorem tagsReflected_of_forall {e : EnumTy} (inside : (Ty.enum e).TagsInside)
    (below : ∀ (n : Nat) (v : Variant) (data : List AbsByte), (data.length : Int) = e.size →
      e.discriminator.decode target data = some (n : Int) → e.variants[n]? = some v →
      ∀ w ∈ v.tagger, ∀ ds, target.endian.encode w.value w.ty.size w.ty.signed = .ok ds →
        AbsByte.leAll (AbsByte.ofData ds none)
          (Slice.read data w.offset (w.offset + w.ty.size)) = true) :
    (Ty.enum e).TagsReflected target := by
  intro n v data tag size found hv written
  obtain ⟨ps, pieces, rfl⟩ := writeTag_eq_ok_iff.1 written
  have within := inside_of_map_extent pieces.map_extent (inside v (List.mem_of_getElem? hv))
  refine AbsByte.leAll_overlayAll_of_forall (AbsByte.leAll_blank size.symm) ?_
  intro p hp
  obtain ⟨w, hw, start, ds, hds, content⟩ := exists_of_forall₂ pieces hp
  refine ⟨size ▸ within p hp, ?_⟩
  rw [start, content, AbsByte.length_ofData, Endian.length_of_encode hds]
  exact below n v data size found hv w hw ds hds

end Ty

end AbstractMachine
