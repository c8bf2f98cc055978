/-
# AbstractMachine.Proofs.Machine.Unions — unions keep what is in their fields

The value of a union is a list of bytes for each of its chunks, through whichever field they were
written. A byte that no chunk covers is lost when the union is copied. But the chunks are worked out from
the fields, and cover all that the fields cover (`Keeping.exists_chunk_iff`), with the padding inside
them. So bytes that are blank beside the fields are those of the value that they stand for
(`Keeping.bytes_ofBytes`), and to copy the value is to copy the bytes.

The place of a field is a view of the bytes of the union (`Memory.load_view`). So it holds the same in
every copy, be it a value or none. All that is needed of the type of a field that is written to is that
its values come back from their bytes (`Ty.Restores`).

The view of a union without bytes is granted wherever its place is aligned. An expression for the place
of its field asks for more, an address, and that is the one thing that may be missing
(`no_view_onlyUnit`).
-/
import AbstractMachine.Proofs.Layout.Builders
import AbstractMachine.Proofs.Machine.Foundation
import AbstractMachine.Proofs.Machine.Tagging

namespace AbstractMachine

open Slice AbsByte

variable {target : Target}

/-! ## The bytes of a union -/

namespace UnionTy

variable {u : UnionTy} {f : Field} {i : Int} {v : Value} {data bytes : List AbsByte}

/-- The fields of a union lie inside it, and its chunks are worked out from them. -/
structure Keeping (target : Target) (u : UnionTy) : Prop where
  inside : ∀ f ∈ u.fields, 0 ≤ f.offset ∧ 0 ≤ f.ty.byteSize target ∧
    f.offset + f.ty.byteSize target ≤ u.size
  chunks : chunksOf target u.fields u.size = .ok u.chunks

/-- The value that bytes stand for. -/
def ofBytes (u : UnionTy) (data : List AbsByte) : Value :=
  .union (u.chunks.map fun c => Slice.read data c.start (c.start + c.size))

/-- The bytes in which those of a field are written and all others are blank. -/
def blankBut (u : UnionTy) (f : Field) (bytes : List AbsByte) : List AbsByte :=
  Slice.overlay (blank u.size) f.offset bytes

/-- What no field covers is uninitialised. -/
def Clean (target : Target) (u : UnionTy) (data : List AbsByte) : Prop :=
  ∀ k : Nat, (∀ f ∈ u.fields, (k : Int) ∉ f.extent target) → ∀ x ∈ data[k]?, x = .uninit

theorem ofField_eq (has : u.fieldAt i = .ok f) (encoded : f.ty.encode target v = .ok bytes) :
    u.ofField target i v = .ok (u.ofBytes (u.blankBut f bytes)) := by
  rw [ofField, has]
  simp only [bind, Except.bind, encoded]
  rfl

namespace Keeping

/-- A union with a field has no negative size. -/
theorem nonneg (h : u.Keeping target) (hf : f ∈ u.fields) : 0 ≤ u.size := by
  have := h.inside f hf
  omega

theorem within (h : u.Keeping target) (hf : f ∈ u.fields) : (f.extent target).Inside u.size := by
  have := h.inside f hf
  exact Chunk.inside_iff.2 (.inr ⟨this.1, this.2.2⟩)

theorem exists_chunk_iff (h : u.Keeping target) {k : Int} :
    (∃ c ∈ u.chunks, k ∈ c) ↔ ∃ f ∈ u.fields, k ∈ f.extent target := by
  refine mem_chunks_iff h.chunks fun f hf => ?_
  have := h.inside f hf
  exact ⟨this.1, this.2.2⟩

/-- Bytes that are clean are those of the value that they stand for: each of the others is in a chunk,
since it is in a field. -/
theorem bytes_ofBytes (h : u.Keeping target) (length : (data.length : Int) = u.size)
    (clean : u.Clean target data) :
    (Ty.union u).wellFormed target (u.ofBytes data) = .ok true ∧
      (Ty.union u).bytes target (u.ofBytes data) = .ok data := by
  have sound := Ty.sound_of_chunksOf (by omega) h.chunks
  have between := (chunks_of_chunksOf h.chunks).1
  have inside (c : Chunk) (hc : c ∈ u.chunks) : c.Inside data.length := by
    rw [length]
    exact sound.chunks_inside c hc
  have fit : List.Forall₂ (fun (c : Chunk) bs => (bs.length : Int) = c.size) u.chunks
      (u.chunks.map fun c => Slice.read data c.start (c.start + c.size)) := by
    rw [List.forall₂_map_right_iff, List.forall₂_same]
    intro c hc
    exact length_read data (Int.le_of_lt (between c hc).2.1) (inside c hc)
  refine ⟨Ty.wellFormed_union_iff.2 ⟨_, rfl, fit⟩, ?_⟩
  rw [ofBytes, Ty.bytes_union fit, Except.ok.injEq]
  apply List.ext_getElem?
  intro k
  obtain ⟨piece, hp, covers, same⟩ | ⟨uncovered, same⟩ :=
    getElem?_overlayAll (Ty.inside_of_chunkPieces sound.chunks_inside fit) k
  · -- A chunk repeats what was read for it.
    rw [Ty.chunkPieces_map] at hp
    obtain ⟨c, hc, rfl⟩ := List.mem_map.1 hp
    have sized := length_read data (Int.le_of_lt (between c hc).2.1) (inside c hc)
    simp only [Piece.extent, Chunk.mem_iff, sized] at covers
    rw [same]
    dsimp only
    rw [getElem?_read data (by omega) (inside c hc), if_pos (by omega)]
    congr 1
    omega
  · -- What is in no chunk is in no field either, and so it is blank in both.
    rw [same, blank, List.getElem?_replicate]
    have bare : ∀ f ∈ u.fields, (k : Int) ∉ f.extent target := by
      intro f hf covered
      obtain ⟨c, hc, covers⟩ := h.exists_chunk_iff.2 ⟨f, hf, covered⟩
      refine uncovered ⟨c.start, Slice.read data c.start (c.start + c.size)⟩ ?_ ?_
      · rw [Ty.chunkPieces_map]
        exact List.mem_map_of_mem hc
      · rwa [Piece.extent, length_read data (Int.le_of_lt (between c hc).2.1) (inside c hc)]
    by_cases bound : k < data.length
    · rw [if_pos (by omega), List.getElem?_eq_getElem bound]
      exact congrArg some (clean k bare _ (List.getElem?_eq_getElem bound)).symm
    · rw [if_neg (by omega), List.getElem?_eq_none (by omega)]

/-! ## What a field leaves behind -/

section Field

variable (h : u.Keeping target) (hf : f ∈ u.fields)
  (sized : (bytes.length : Int) = f.ty.byteSize target)
include h hf sized

theorem length_blankBut : ((u.blankBut f bytes).length : Int) = u.size := by
  have nonneg := h.nonneg hf
  have within := h.within hf
  rw [Field.extent, ← sized] at within
  have kept : (u.blankBut f bytes).length = (blank u.size).length :=
    length_overlay_of_inside _ ⟨f.offset, bytes⟩ (by rwa [length_blank_of_nonneg nonneg])
  rw [kept, length_blank_of_nonneg nonneg]

/-- One byte of it. -/
theorem getElem?_blankBut (k : Nat) : (u.blankBut f bytes)[k]? =
    if (k : Int) ∈ f.extent target then bytes[(k - f.offset).toNat]? else (blank u.size)[k]? := by
  have within := h.within hf
  rw [Field.extent, ← sized] at within ⊢
  exact getElem?_overlay _ ⟨f.offset, bytes⟩ (by rwa [length_blank_of_nonneg (h.nonneg hf)]) k

theorem clean_blankBut : u.Clean target (u.blankBut f bytes) := by
  intro k bare x hx
  rw [h.getElem?_blankBut hf sized, if_neg (bare f hf), blank] at hx
  exact List.eq_of_mem_replicate (List.mem_of_getElem? hx)

/-- The field is found there. -/
theorem read_blankBut :
    Slice.read (u.blankBut f bytes) f.offset (f.offset + f.ty.byteSize target) = bytes := by
  have within := h.within hf
  rw [Field.extent, ← sized] at within
  rw [← sized]
  let piece : Piece AbsByte := ⟨f.offset, bytes⟩
  exact read_overlayAll (List.forall_mem_singleton.2 (by rwa [length_blank_of_nonneg (h.nonneg hf)]))
    (List.pairwise_singleton _ piece) List.mem_cons_self

end Field

end Keeping

end UnionTy

/-! ## Unions in memory -/

namespace Memory

variable {m m' : Memory} {u : UnionTy} {f g : Field} {p q : Pointer} {size align align' : Int}
  {v : Value} {data bytes : List AbsByte} {place : PlaceTy}

/-- Some value of its type can be stored to a place. -/
def Storable (m : Memory) (p : Pointer) (place : PlaceTy) : Prop :=
  ∃ v m', m.typedStore p v place = .ok m'

/-- What is beside a store is loaded as before. -/
theorem load_of_store_apart (numbered : m.Numbered) (stored : m.store q bytes align' = .ok m')
    (nonneg : 0 ≤ size) (apart : (Chunk.mk p.addr size).Apart ⟨q.addr, bytes.length⟩)
    (loaded : m.load p size align = .ok data) : m'.load p size align = .ok data := by
  have written := overwritten_of_store numbered stored
  obtain ⟨new, later⟩ := (written.granted p size align nonneg).2 ⟨data, loaded⟩
  obtain ⟨length, length', each⟩ := written.bytes p size align data new nonneg loaded later
  rw [later, Except.ok.injEq]
  apply List.ext_getElem?
  intro k
  by_cases bound : (k : Int) < size
  · rw [each k bound, if_neg]
    rintro ⟨-, low, high⟩
    exact apart (p.addr + k) (Chunk.mem_iff.2 ⟨by dsimp only; omega, by dsimp only; omega⟩)
      (Chunk.mem_iff.2 ⟨low, high⟩)
  · rw [List.getElem?_eq_none (by omega), List.getElem?_eq_none (by omega)]

/-- Where the same bytes are found, the same comes of a typed load. -/
theorem typedLoad_congr {t : Ty} (target : m'.target = m.target)
    (same : m'.load q (t.byteSize m.target) align' = m.load p (t.byteSize m.target) align) :
    m'.typedLoad q ⟨t, align'⟩ = m.typedLoad p ⟨t, align⟩ := by
  simp only [typedLoad, PlaceTy.byteSize, target, same]

section Views

variable (keeping : u.Keeping m.target)
include keeping

/-- To store the value of clean bytes is to store the bytes. -/
theorem typedStore_ofBytes_iff (length : (data.length : Int) = u.size)
    (clean : u.Clean m.target data) :
    m.typedStore p (u.ofBytes data) ⟨.union u, align⟩ = .ok m' ↔ m.store p data align = .ok m' := by
  obtain ⟨wellFormed, made⟩ := keeping.bytes_ofBytes length clean
  rw [typedStore_eq_ok_iff]
  constructor
  · rintro ⟨bytes, encoded, stored⟩
    obtain rfl := Except.ok.inj ((Ty.encode_eq_ok_iff.1 encoded).2.symm.trans made)
    exact stored
  · intro stored
    exact ⟨data, Ty.encode_eq_ok_iff.2 ⟨wellFormed, made⟩, stored⟩

/-- Where a union can be stored, as many bytes can. -/
theorem Storable.exists_store (h : m.Storable p ⟨.union u, align⟩) (numbered : m.Numbered)
    (length : (data.length : Int) = u.size) : ∃ m', m.store p data align = .ok m' := by
  obtain ⟨v, m', stored⟩ := h
  obtain ⟨bytes, encoded, stored⟩ := typedStore_eq_ok_iff.1 stored
  obtain ⟨wellFormed, made⟩ := Ty.encode_eq_ok_iff.1 encoded
  have sound := Ty.sound_of_chunksOf (by omega) keeping.chunks
  have laid : (Ty.union u).Every (Ty.LaidOut m.target) := .intro sound.toLaidOut nofun
  have same : (bytes.length : Int) = u.size := Ty.length_bytes laid wellFormed made
  exact exists_store_of_length_eq numbered stored (by omega)

/-- Where a union can be stored, bytes can be loaded. -/
theorem Storable.exists_load (h : m.Storable p ⟨.union u, align⟩) (numbered : m.Numbered)
    (nonneg : 0 ≤ u.size) : ∃ data, m.load p u.size align = .ok data := by
  have length : ((AbsByte.blank u.size).length : Int) = u.size := length_blank_of_nonneg nonneg
  obtain ⟨m', stored⟩ := h.exists_store keeping numbered length
  rw [← length]
  exact exists_load_of_outline_eq (outline_of_store numbered stored) (load_of_store numbered stored)

/-- The place of a field is a view of the bytes of the place. -/
theorem load_view (laid : m.Laid) (power : PowerOfTwo align) (hf : f ∈ u.fields)
    (loaded : m.load p u.size align = .ok data) :
    m.load (f.pointer p) (f.ty.byteSize m.target) (restrictAlign align f.offset) =
      .ok (Slice.read data f.offset (f.offset + f.ty.byteSize m.target)) :=
  load_part laid power loaded (keeping.inside f hf).2.1 (keeping.within hf) (dvd_refl _)

/-- The places of a field in two unions hold the same, if the unions have the same bytes. -/
theorem typedLoad_view_congr (laid : m.Laid) (laid' : m'.Laid) (target : m'.target = m.target)
    (power : PowerOfTwo align) (power' : PowerOfTwo align') (hf : f ∈ u.fields)
    (loaded : m.load p u.size align = .ok data) (loaded' : m'.load q u.size align' = .ok data) :
    m'.typedLoad (f.pointer q) (PlaceTy.slot m.target ⟨.union u, align'⟩ f) =
      m.typedLoad (f.pointer p) (PlaceTy.slot m.target ⟨.union u, align⟩ f) := by
  have here := load_view keeping laid power hf loaded
  have there := load_view (m := m') (by rwa [target]) laid' power' hf loaded'
  rw [target] at there
  exact typedLoad_congr target (there.trans here.symm)

end Views

/-! ## One field written -/

/-- What comes of storing a value to the place of a union, if it is the one in which a field was
written. -/
structure Keeps (m : Memory) (u : UnionTy) (p : Pointer) (align : Int) (f : Field) (v w : Value)
    (m' : Memory) : Prop where
  stored : m.typedStore p w ⟨.union u, align⟩ = .ok m'
  /-- The field holds what was written to it. -/
  found : m'.typedLoad (f.pointer p) (PlaceTy.slot m.target ⟨.union u, align⟩ f) = .ok v
  /-- Beside the field there are blank bytes only. -/
  blank : ∃ data, m'.load p u.size align = .ok data ∧ (data.length : Int) = u.size ∧
    ∀ k : Nat, (k : Int) ∉ f.extent m.target → ∀ x ∈ data[k]?, x = .uninit
  /-- The place holds the value that was stored. -/
  loaded : m'.typedLoad p ⟨.union u, align⟩ = .ok w
  /-- That is stored to any other place, and the field is found there as well. What any field holds
  there is what it holds in the first place, and has held before. -/
  copied : ∀ q align', PowerOfTwo align' → m.Storable q ⟨.union u, align'⟩ →
    (Chunk.mk p.addr u.size).Apart ⟨q.addr, u.size⟩ →
    ∃ m₂, m'.typedStore q w ⟨.union u, align'⟩ = .ok m₂ ∧
      m₂.typedLoad (f.pointer q) (PlaceTy.slot m.target ⟨.union u, align'⟩ f) = .ok v ∧
      ∀ g ∈ u.fields,
        m₂.typedLoad (g.pointer q) (PlaceTy.slot m.target ⟨.union u, align'⟩ g) =
          m₂.typedLoad (g.pointer p) (PlaceTy.slot m.target ⟨.union u, align⟩ g) ∧
        m₂.typedLoad (g.pointer p) (PlaceTy.slot m.target ⟨.union u, align⟩ g) =
          m'.typedLoad (g.pointer p) (PlaceTy.slot m.target ⟨.union u, align⟩ g)

/-- The place and its copies have the bytes in which the field is written, and those bytes decide what
is found. -/
theorem keeps_of_encode (laid : m.Laid) (power : PowerOfTwo align) (keeping : u.Keeping m.target)
    (storable : m.Storable p ⟨.union u, align⟩) (hf : f ∈ u.fields)
    (sized : (bytes.length : Int) = f.ty.byteSize m.target)
    (decoded : f.ty.decode m.target bytes = .ok (some v)) :
    ∃ m', m.Keeps u p align f v (u.ofBytes (u.blankBut f bytes)) m' := by
  have length := keeping.length_blankBut hf sized
  have clean := keeping.clean_blankBut hf sized
  have nonneg := keeping.nonneg hf
  set data := u.blankBut f bytes with made
  obtain ⟨m', stored⟩ := storable.exists_store keeping laid.numbered length
  have outline := outline_of_store laid.numbered stored
  have laid' := laid.of_outline_eq outline
  have same := target_of_outline_eq outline
  have loaded : m'.load p u.size align = .ok data := length ▸ load_of_store laid.numbered stored
  -- where the bytes of the union are found, the field is found
  have found {n : Memory} {q : Pointer} {align' : Int} (laid : n.Laid) (same : n.target = m.target)
      (power : PowerOfTwo align') (loaded : n.load q u.size align' = .ok data) :
      n.typedLoad (f.pointer q) (PlaceTy.slot m.target ⟨.union u, align'⟩ f) = .ok v := by
    have view := load_view (m := n) (by rwa [same]) laid power hf loaded
    rw [same, keeping.read_blankBut hf sized] at view
    exact typedLoad_eq_ok_iff.2 ⟨bytes, by rwa [same], by rwa [same]⟩
  refine ⟨m', ?_, found laid' same power loaded, ⟨data, loaded, length, ?_⟩, ?_, ?_⟩
  · exact (typedStore_ofBytes_iff keeping length clean).2 stored
  · intro k beside x hx
    rw [made, keeping.getElem?_blankBut hf sized, if_neg beside] at hx
    exact List.eq_of_mem_replicate (List.mem_of_getElem? hx)
  · exact typedLoad_eq_ok_iff.2 ⟨data, loaded, Ty.decode_union_iff.2 ⟨length, rfl⟩⟩
  · intro q align' power' storable' apart
    obtain ⟨_, first⟩ := storable'.exists_store keeping laid.numbered length
    obtain ⟨m₂, second⟩ := exists_store_of_outline_eq outline first
    have outline₂ := outline_of_store laid'.numbered second
    have laid₂ := laid'.of_outline_eq outline₂
    have same₂ : m₂.target = m.target := (target_of_outline_eq outline₂).trans same
    have copy : m₂.load q u.size align' = .ok data := length ▸ load_of_store laid'.numbered second
    have kept := load_of_store_apart laid'.numbered second nonneg (by rwa [length]) loaded
    refine ⟨m₂, ?_, found laid₂ same₂ power' copy, fun g hg => ⟨?_, ?_⟩⟩
    · exact (typedStore_ofBytes_iff (same ▸ keeping) length (same ▸ clean)).2 second
    · have views := typedLoad_view_congr (m := m₂) (by rwa [same₂]) laid₂ laid₂ rfl power power' hg
        kept copy
      rwa [same₂] at views
    · have views := typedLoad_view_congr (m := m') (by rwa [same]) laid' laid₂ (same₂.trans same.symm)
        power power hg loaded kept
      rwa [same] at views

end Memory

/-! ## Unions in programs -/

namespace Machine

variable {s s₀ : Machine} {u : UnionTy} {f g : Field} {root : PlaceExpr} {e : ValueExpr} {t : Ty}
  {p q : Pointer} {align i k : Int} {v w : Value}

/-- An expression for a union writes the value of its operand to one of the fields. -/
theorem evalValue_union_of_ofField (run : evalValue e s₀ = (.ok (v, t), s))
    (written : u.ofField s.store.memory.target i v = .ok w) :
    evalValue (.union i e u) s₀ = (.ok (w, .union u), s) := by
  have written : u.ofField s.target i v = .ok w := written
  rw [evalValue_union run, written]
  rfl

/-- There is an expression for the place of a field wherever there is one for that of the union. A
union without bytes need not be where memory is, and its address has to be one. -/
theorem Finds.view (finds : s.Finds root p ⟨.union u, align⟩) (laid : s.store.memory.Laid)
    (power : PowerOfTwo align) (keeping : u.Keeping s.store.memory.target)
    (storable : s.store.memory.Storable p ⟨.union u, align⟩)
    (address : u.size = 0 → 1 ≤ s.store.memory.target.ptrSize ∧
      s.store.memory.target.addrInBounds p.addr = .ok true) (has : u.fieldAt k = .ok g) :
    s.Finds (.field root k) (g.pointer p) (PlaceTy.slot s.store.memory.target ⟨.union u, align⟩ g) := by
  have hg : g ∈ u.fields := by
    obtain ⟨n, -, at_⟩ := elementAt_eq_ok_iff.1 has
    exact List.mem_of_getElem? at_
  let place : PlaceTy := ⟨.union u, align⟩
  have nonneg : 0 ≤ place.byteSize s.store.memory.target := keeping.nonneg hg
  have start : 0 ≤ g.offset ∧ g.offset ≤ place.byteSize s.store.memory.target := by
    have bounds := keeping.inside g hg
    show 0 ≤ g.offset ∧ g.offset ≤ u.size
    omega
  obtain ⟨data, loaded⟩ : ∃ data, s.store.memory.load p (place.byteSize s.store.memory.target)
      place.align = .ok data := storable.exists_load keeping laid.numbered nonneg
  have width : 1 ≤ s.store.memory.target.ptrSize := by
    obtain ⟨-, ⟨empty, -⟩ | ⟨-, a, hits, -⟩⟩ := Memory.load_eq_ok_iff.1 loaded
    · exact (address empty).1
    · obtain ⟨id, -, found⟩ := hits.named
      exact (laid.placed a (Memory.mem_allocations_of_allocation found)).one_le_ptrSize
  have moved := Memory.offsetInBounds_part laid width power loaded nonneg start fun empty =>
    (address empty).2
  intro memory same
  have moved := Memory.offsetInBounds_of_outline_eq same moved
  have moved : offsetInBounds p g.offset (s.upon memory) = (.ok (g.pointer p), s.upon memory) :=
    Prod.ext moved rfl
  rw [evalPlace, Action.apply_bind_of_ok (finds memory same)]
  simp only [Ty.fieldAt, has]
  rw [Action.apply_bind_of_ok (Action.ofExcept_eq_iff.2 ⟨rfl, rfl⟩)]
  exact Action.apply_bind_of_ok moved _

/-- Unions keep what is in their fields, in every memory that there can be. An expression that writes a
value to a field of a union has a value; where that is stored, the field holds what was written, all
else is blank, and so it is in each copy of the place. The fields have expressions for their places
wherever the union has one, unless it has no bytes and there is no such address. -/
theorem keeps_of_reached (reached : Memory.Reached target s.store.memory)
    (keeping : u.Keeping target) (has : u.fieldAt i = .ok f) (restores : f.ty.Restores target)
    (wellFormed : f.ty.wellFormed target v = .ok true) (power : PowerOfTwo align)
    (storable : s.store.memory.Storable p ⟨.union u, align⟩) :
    (∃ w m', s.store.memory.Keeps u p align f v w m' ∧
      ∀ s₀ e t, evalValue e s₀ = (.ok (v, t), s) →
        evalValue (.union i e u) s₀ = (.ok (w, .union u), s)) ∧
    ∀ q align' root, PowerOfTwo align' → s.store.memory.Storable q ⟨.union u, align'⟩ →
      s.Finds root q ⟨.union u, align'⟩ →
      (u.size = 0 → 1 ≤ target.ptrSize ∧ target.addrInBounds q.addr = .ok true) →
      ∀ k g, u.fieldAt k = .ok g →
        s.Finds (.field root k) (g.pointer q) (PlaceTy.slot target ⟨.union u, align'⟩ g) := by
  obtain rfl := reached.target_eq
  have laid := reached.laid
  obtain ⟨n, -, at_⟩ := elementAt_eq_ok_iff.1 has
  have hf := List.mem_of_getElem? at_
  obtain ⟨bytes, encoded, decoded⟩ := restores v wellFormed
  constructor
  · obtain ⟨m', keeps⟩ := Memory.keeps_of_encode laid power keeping storable hf
      (Ty.length_of_decode decoded) decoded
    refine ⟨_, m', keeps, fun s₀ e t run => ?_⟩
    exact evalValue_union_of_ofField run (UnionTy.ofField_eq has encoded)
  · intro q align' root power' storable' finds address k g has'
    exact finds.view laid power' keeping storable' address has'

/-- Two bytes with a gap between them. -/
def bytePair : Ty := .tuple [⟨0, .int ⟨false, 1⟩⟩, ⟨2, .int ⟨false, 1⟩⟩] 3

theorem every_sound_bytePair : bytePair.Every (Ty.Sound .standard) := by
  have number : (Ty.int ⟨false, 1⟩).Every (Ty.Sound .standard) := .intro Ty.sound_int nofun
  refine .intro (Ty.sound_tuple_iff.2 ⟨?_, ?_, ?_⟩)
    (List.forall_mem_cons.2 ⟨number, List.forall_mem_singleton.2 number⟩)
  · decide
  · exact List.forall_mem_cons.2 ⟨by decide, List.forall_mem_singleton.2 (by decide)⟩
  · exact List.pairwise_pair.2 (by decide)

/-- A byte, and behind another gap such a pair. -/
def byteOrPair : UnionTy where
  fields := [⟨0, .int ⟨false, 1⟩⟩, ⟨2, bytePair⟩]
  chunks := [⟨0, 1⟩, ⟨2, 3⟩]
  size := 6

theorem keeping_byteOrPair : byteOrPair.Keeping .standard where
  inside := List.forall_mem_cons.2 ⟨by decide, List.forall_mem_singleton.2 (by decide)⟩
  chunks := rfl

/-- Of the chunks that it keeps, those are filled that the pair covers. -/
theorem ofField_byteOrPair : byteOrPair.ofField .standard 1 (.tuple [.int 3, .int 4]) =
    .ok (.union [[.uninit], [.init 3 none, .uninit, .init 4 none]]) := by
  have encoded : bytePair.encode .standard (.tuple [.int 3, .int 4]) =
    .ok [.init 3 none, .uninit, .init 4 none] := rfl
  have laid : byteOrPair.blankBut ⟨2, bytePair⟩ [.init 3 none, .uninit, .init 4 none] =
    [.uninit, .uninit, .init 3 none, .uninit, .init 4 none, .uninit] := by decide
  rw [UnionTy.ofField_eq rfl encoded, laid]
  rfl

/-- The pair is written to such a union, which is copied to the six bytes that follow. There the pair is
found again, and the byte is still missing. -/
theorem keeps_byteOrPair :
    let v : Value := .tuple [.int 3, .int 4]
    let w : Value := .union [[.uninit], [.init 3 none, .uninit, .init 4 none]]
    let root := placeAt ⟨22, some ⟨0⟩⟩ (.union byteOrPair) 1
    (∃ m' m₂, (withBlank 12).store.memory.Keeps byteOrPair ⟨16, some ⟨0⟩⟩ 1 ⟨2, bytePair⟩ v w m' ∧
      m'.typedStore ⟨22, some ⟨0⟩⟩ w ⟨.union byteOrPair, 1⟩ = .ok m₂ ∧
      m₂.typedLoad ⟨24, some ⟨0⟩⟩ ⟨bytePair, 1⟩ = .ok v ∧
      m₂.typedLoad ⟨22, some ⟨0⟩⟩ ⟨.int ⟨false, 1⟩, 1⟩ =
        .error (.undefined (.invalidLoad (.int ⟨false, 1⟩)))) ∧
    (withBlank 12).Finds (.field root 1) ⟨24, some ⟨0⟩⟩ ⟨bytePair, 1⟩ := by
  intro v w root
  have reached : Memory.Reached .standard (withBlank 12).store.memory := .calls _ _
  have here : (withBlank 12).store.memory.Storable ⟨16, some ⟨0⟩⟩ ⟨.union byteOrPair, 1⟩ :=
    ⟨w, _, rfl⟩
  have there : (withBlank 12).store.memory.Storable ⟨22, some ⟨0⟩⟩ ⟨.union byteOrPair, 1⟩ :=
    ⟨w, _, rfl⟩
  have restores := Ty.restores_of_sound (show 1 ≤ Target.standard.ptrSize by decide)
    every_sound_bytePair
  obtain ⟨⟨w', m', keeps, made⟩, views⟩ := keeps_of_reached reached keeping_byteOrPair (i := 1) rfl
    restores (v := v) rfl powerOfTwo_one here
  have value : evalValue (.union 1 (.constant v bytePair) byteOrPair) (withBlank 12) =
    (.ok (w, .union byteOrPair), withBlank 12) := evalValue_union_of_ofField rfl ofField_byteOrPair
  have same : w' = w := by
    have both := value.symm.trans (made (withBlank 12) (.constant v bytePair) bytePair rfl)
    exact (Prod.mk.inj (Except.ok.inj (Prod.mk.inj both).1)).1.symm
  rw [same] at keeps
  obtain ⟨m₂, copied, found, others⟩ := keeps.copied ⟨22, some ⟨0⟩⟩ 1 powerOfTwo_one
    there (by decide)
  refine ⟨⟨m', m₂, keeps, copied, found, ?_⟩, ?_⟩
  · obtain ⟨first, second⟩ := others ⟨0, .int ⟨false, 1⟩⟩ List.mem_cons_self
    have first : m₂.typedLoad ⟨22, some ⟨0⟩⟩ ⟨.int ⟨false, 1⟩, 1⟩ =
      m₂.typedLoad ⟨16, some ⟨0⟩⟩ ⟨.int ⟨false, 1⟩, 1⟩ := first
    have second : m₂.typedLoad ⟨16, some ⟨0⟩⟩ ⟨.int ⟨false, 1⟩, 1⟩ =
      m'.typedLoad ⟨16, some ⟨0⟩⟩ ⟨.int ⟨false, 1⟩, 1⟩ := second
    rw [first, second]
    have written : (withBlank 12).store.memory.typedStore ⟨16, some ⟨0⟩⟩ w ⟨.union byteOrPair, 1⟩ =
      .ok (withBytes ([.uninit, .uninit, .init 3 none, .uninit, .init 4 none, .uninit] ++
        List.replicate 6 .uninit)).store.memory := rfl
    obtain rfl := Except.ok.inj (keeps.stored.symm.trans written)
    rfl
  · exact views _ 1 root powerOfTwo_one there (finds_placeAt _ _ _ _) nofun 1 _ rfl

/-- A union of nothing but a unit has no bytes, and its place can be anywhere. -/
def onlyUnit : UnionTy where
  fields := [⟨0, .unit⟩]
  chunks := []
  size := 0

/-- Where there is no address, such a union can be stored and loaded, but its field cannot be loaded:
the pointer to it is behind the last address. -/
theorem no_view_onlyUnit :
    let s := resting (Memory.fresh .standard fun _ _ => .ok 8)
    let root := placeAt ⟨2 ^ 64, none⟩ (.union onlyUnit) 1
    (Memory.Reached .standard s.store.memory ∧ onlyUnit.Keeping .standard ∧
      onlyUnit.fieldAt 0 = .ok ⟨0, .unit⟩ ∧ Ty.unit.Restores .standard ∧
      Ty.unit.wellFormed .standard (.tuple []) = .ok true ∧ PowerOfTwo 1 ∧
      s.store.memory.Storable ⟨2 ^ 64, none⟩ ⟨.union onlyUnit, 1⟩) ∧
    execute (.assign root (.union 0 (.constant (.tuple []) .unit) onlyUnit)) s = (.ok (), s) ∧
      evalValue (.load root false) s = (.ok (.union [], .union onlyUnit), s) ∧
      evalValue (.load (.field root 0) false) s = (.error (.undefined .offsetOverflow), s) := by
  intro s root
  have unit : Ty.unit.Every (Ty.Sound .standard) :=
    .intro (Ty.sound_tuple_iff.2 ⟨Int.le_refl 0, nofun, List.Pairwise.nil⟩) nofun
  refine ⟨⟨.calls _ [], ⟨List.forall_mem_singleton.2 (by decide), rfl⟩, rfl,
    Ty.restores_of_sound (by decide) unit, rfl, powerOfTwo_one, ⟨.union [], _, rfl⟩⟩, ?_, ?_, ?_⟩
  · rfl
  · rfl
  · rfl

end Machine

end AbstractMachine
