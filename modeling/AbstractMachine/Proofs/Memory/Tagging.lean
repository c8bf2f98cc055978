/-
# AbstractMachine.Proofs.Memory.Tagging — a variant written whole, or in parts

There are two ways to make a place hold a variant. One encodes the payload, lays the tag over its
bytes and stores them all; the other stores the payload, and then stores the integers of the tag one
by one, each through a pointer that was moved to it and at an alignment worked out for it. Both come
to the same memory (`store_of_storeTag`), because a store inside the range of an earlier one is an
overlay over what was stored then (`store_part_of_store`), and each of the small stores is granted
as the large one was (`exists_storeInt`).

Written alone, a tag changes no other bytes, and to write it again changes nothing
(`storeTag_again`). Both follow from one notion: memories that `Agree` but for some bytes. Each
write takes its range out of those bytes, whatever stood there.
-/
import AbstractMachine.Proofs.Layout.Tags
import AbstractMachine.Proofs.Machine.Lens
import AbstractMachine.Proofs.Memory.Contents

namespace AbstractMachine

/-! ## Overlays over overlays -/

/-- An overlay inside an overlay is one overlay, over which the inner one was laid before. -/
theorem Slice.overlay_overlay {α : Type} (xs data bytes : List α) {s d : Int}
    (inside : (Chunk.mk s data.length).Inside xs.length)
    (within : (Chunk.mk d bytes.length).Inside data.length) :
    overlay (overlay xs s data) (s + d) bytes = overlay xs s (overlay data d bytes) := by
  by_cases empty : bytes = []
  · rw [empty, overlay_nil, overlay_nil]
  have some : 0 < bytes.length := List.length_pos_iff.2 empty
  have bounds : 0 ≤ d ∧ d + bytes.length ≤ data.length := by
    rw [Chunk.inside_iff] at within
    dsimp only at within
    omega
  have outer : 0 ≤ s ∧ s + data.length ≤ xs.length := by
    rw [Chunk.inside_iff] at inside
    dsimp only at inside
    omega
  let large : Piece α := ⟨s, data⟩
  let small : Piece α := ⟨d, bytes⟩
  let moved : Piece α := ⟨s + d, bytes⟩
  let both : Piece α := ⟨s, overlay data d bytes⟩
  have keptData : (overlay data d bytes).length = data.length :=
    length_overlay_of_inside data small within
  have kept : (overlay xs s data).length = xs.length := length_overlay_of_inside xs large inside
  have inMoved : moved.extent.Inside (overlay xs s data).length := by
    refine Chunk.inside_iff.2 (.inr ⟨?_, ?_⟩) <;> simp only [moved, Piece.extent] <;> omega
  have inBoth : both.extent.Inside xs.length := by
    rw [Piece.extent, keptData]
    exact inside
  apply List.ext_getElem?
  intro i
  have left := getElem?_overlay _ moved inMoved i
  have middle := getElem?_overlay xs large inside i
  have right := getElem?_overlay xs both inBoth i
  simp only [moved, large, both, Piece.extent, Chunk.mem_iff, keptData] at left middle right
  rw [left, middle, right]
  by_cases covered : s ≤ (i : Int) ∧ (i : Int) < s + data.length
  · have inner := getElem?_overlay data small within ((i : Int) - s).toNat
    simp only [small, Piece.extent, Chunk.mem_iff] at inner
    rw [if_pos covered, if_pos covered, inner]
    by_cases written : s + d ≤ (i : Int) ∧ (i : Int) < s + d + bytes.length
    · rw [if_pos written, if_pos (by omega)]
      congr 1
      omega
    · rw [if_neg written, if_neg (by omega)]
  · rw [if_neg covered, if_neg covered, if_neg (by omega)]

namespace Memory

variable {m m₁ m₂ : Memory} {p q : Pointer} {align d : Int} {data bytes : List AbsByte}
  {w : TagWrite}

/-! ## A store inside an earlier one -/

/-- Two changes of one allocation are a single one, if they come to the same for it. -/
theorem modify_modify {id : AllocId} {f g h : Allocation → Allocation}
    (same : ∀ a, m.allocation id = .ok a → g (f a) = h a) (nonneg : 0 ≤ id.index) :
    (m.modify id f).modify id g = m.modify id h := by
  have lists : ((m.modify id f).modify id g).allocations = (m.modify id h).allocations := by
    apply List.ext_getElem?
    intro k
    rw [allocations_modify, allocations_modify, allocations_modify]
    by_cases here : id.index.toNat = k
    · rw [if_pos here, if_pos here, if_pos here, Option.map_map]
      cases found : m.allocations[k]? with
      | none => rfl
      | some a =>
          exact congrArg some (same a (allocation_eq_ok_iff.2 ⟨nonneg, here ▸ found⟩))
    · rw [if_neg here, if_neg here, if_neg here]
  exact congrArg (fun as => ({ m with allocations := as } : Memory)) lists

/-- A store of part of the bytes that were just stored could have been made before. -/
theorem store_part_of_store (numbered : m.Numbered) (stored : m.store p data align = .ok m₁)
    (some : bytes ≠ []) (within : (Chunk.mk d bytes.length).Inside data.length) {align' : Int}
    (part : m₁.store { p with addr := p.addr + d } bytes align' = .ok m₂) :
    m.store p (Slice.overlay data d bytes) align = .ok m₂ := by
  have filled : data ≠ [] := by
    rintro rfl
    have := List.length_pos_iff.2 some
    rw [Chunk.inside_iff] at within
    simp only [List.length_nil] at within
    omega
  let piece : Piece AbsByte := ⟨d, bytes⟩
  have kept : (Slice.overlay data d bytes).length = data.length :=
    Slice.length_overlay_of_inside data piece within
  obtain ⟨aligned, ⟨none, -⟩ | ⟨-, a, hits, rfl⟩⟩ := store_eq_ok_iff.1 stored
  · exact absurd none filled
  obtain ⟨-, ⟨none, -⟩ | ⟨-, b, hits', rfl⟩⟩ := store_eq_ok_iff.1 part
  · exact absurd none some
  obtain ⟨id, named, found⟩ := hits.named
  obtain ⟨id', named', found'⟩ := hits'.named
  obtain rfl : id = id' := Option.some.inj (named.symm.trans named')
  have sameA := numbered.id_eq found
  have sameB : b.id = id := by
    refine Numbered.id_eq ?_ found'
    exact numbered_modify numbered fun _ => rfl
  refine store_eq_ok_iff.2 ⟨aligned, .inr ⟨?_, a, kept ▸ hits, ?_⟩⟩
  · rw [← List.length_pos_iff, kept]
    exact List.length_pos_iff.2 filled
  · rw [sameA, sameB]
    refine modify_modify (fun c hc => ?_) (allocation_eq_ok_iff.1 found).1
    -- what is changed is what was hit
    obtain rfl := Except.ok.inj (found.symm.trans hc)
    have start : p.addr + d - a.addr = p.addr - a.addr + d := by omega
    simp only [start, Slice.overlay_overlay a.contents data bytes hits.inside within]

/-! ## One integer of a tag -/

/-- A number that fits is stored as its bytes are. -/
theorem typedStore_int {t : IntTy} {n : Int} {ds : List UInt8}
    (fit : t.canRepresent n = .ok true)
    (encoded : m.target.endian.encode n t.size t.signed = .ok ds) :
    m.typedStore q (.int n) ⟨.int t, align⟩ = m.store q (AbsByte.ofData ds none) align := by
  have made : (Ty.int t).encode m.target (.int n) = .ok (AbsByte.ofData ds none) :=
    Ty.encode_eq_ok_iff.2 ⟨Ty.wellFormed_int_iff.2 ⟨n, rfl, fit⟩, Ty.bytes_int_iff.2 ⟨ds, encoded, rfl⟩⟩
  cases stored : m.store q (AbsByte.ofData ds none) align with
  | ok m' => exact typedStore_eq_ok_iff.2 ⟨_, made, stored⟩
  | error f =>
      have wellFormed := (Ty.encode_eq_ok_iff.1 made).1
      simp only [typedStore, wellFormed, made, bind, Except.bind]
      exact stored

/-- After bytes were stored, an integer inside their range can be stored through a pointer that was
moved there, and this is an overlay over the bytes. -/
theorem exists_storeInt (laid : m.Laid) (power : PowerOfTwo align)
    (stored : m.store p data align = .ok m₁) {ds : List UInt8} (sized : 1 ≤ w.ty.size)
    (fit : w.ty.canRepresent w.value = .ok true)
    (encoded : m.target.endian.encode w.value w.ty.size w.ty.signed = .ok ds)
    (inside : w.extent.Inside data.length) :
    ∃ m₂, m₁.offsetInBounds p w.offset = .ok { p with addr := p.addr + w.offset } ∧
      m₁.typedStore { p with addr := p.addr + w.offset } (.int w.value)
        ⟨.int w.ty, restrictAlign align w.offset⟩ = .ok m₂ ∧
      m.store p (Slice.overlay data w.offset (AbsByte.ofData ds none)) align = .ok m₂ := by
  have length : ((AbsByte.ofData ds none).length : Int) = w.ty.size := by
    rw [AbsByte.length_ofData, Endian.length_of_encode encoded]
  have bounds : 0 ≤ w.offset ∧ w.offset + w.ty.size ≤ data.length := by
    have := Chunk.inside_iff.1 inside
    simp only [TagWrite.extent] at this
    omega
  have target := target_of_outline_eq (outline_of_store laid.numbered stored)
  have laid₁ := laid.of_outline_eq (outline_of_store laid.numbered stored)
  have loaded := load_of_store laid.numbered stored
  have width : 1 ≤ m₁.target.ptrSize := by
    obtain ⟨-, ⟨rfl, -⟩ | ⟨-, a, hits, -⟩⟩ := store_eq_ok_iff.1 stored
    · simp only [List.length_nil] at bounds
      omega
    · obtain ⟨id, -, found⟩ := hits.named
      rw [target]
      exact (laid.placed a (mem_allocations_of_allocation found)).one_le_ptrSize
  have moved : m₁.offsetInBounds p w.offset = .ok { p with addr := p.addr + w.offset } := by
    -- any place of that size would do
    let whole : PlaceTy := ⟨.tuple [] data.length, align⟩
    have size : whole.byteSize m₁.target = data.length := rfl
    have power : PowerOfTwo whole.align := power
    exact offsetInBounds_part laid₁ width power loaded (by omega) (by omega) (by omega)
  have within : (Chunk.mk w.offset (AbsByte.ofData ds none).length).Inside data.length := by
    rw [length]
    exact inside
  obtain ⟨m₂, part⟩ := exists_store_of_load
    (load_part laid₁ power loaded (Int.natCast_nonneg _) within (dvd_refl w.offset))
  refine ⟨m₂, moved, ?_, store_part_of_store laid.numbered stored ?_ within part⟩
  · rw [← target] at encoded
    rw [typedStore_int fit encoded]
    exact part
  · rintro none
    rw [none, List.length_nil] at length
    omega

/-! ## A whole tag -/

/-- Store the integers of a tag, first to last. -/
def storeTag (p : Pointer) (align : Int) : List TagWrite → Memory → Except Fault Memory
  | [], m => .ok m
  | w :: ws, m => do
      let q ← m.offsetInBounds p w.offset
      storeTag p align ws
        (← m.typedStore q (.int w.value) ⟨.int w.ty, restrictAlign align w.offset⟩)

theorem storeTag_cons_eq_ok_iff {ws : List TagWrite} {m' : Memory} :
    storeTag p align (w :: ws) m = .ok m' ↔
      ∃ q m₁, m.offsetInBounds p w.offset = .ok q ∧
        m.typedStore q (.int w.value) ⟨.int w.ty, restrictAlign align w.offset⟩ = .ok m₁ ∧
        storeTag p align ws m₁ = .ok m' := by
  simp only [storeTag, bind_eq_ok_iff, exists_and_left]

/-- After a payload was stored, its tag can be; and then memory is as if the bytes of both had been
stored at once. -/
theorem store_of_storeTag (laid : m.Laid) (power : PowerOfTwo align) {ws : List TagWrite}
    {ps : List (Piece AbsByte)} (pieces : TagPieces m.target ws ps)
    (sized : ∀ w ∈ ws, 1 ≤ w.ty.size) (fit : ∀ w ∈ ws, w.ty.canRepresent w.value = .ok true)
    (inside : ∀ w ∈ ws, w.extent.Inside data.length) (stored : m.store p data align = .ok m₁) :
    ∃ m', storeTag p align ws m₁ = .ok m' ∧
      m.store p (Slice.overlayAll ps data) align = .ok m' := by
  induction pieces generalizing data m₁ with
  | nil => exact ⟨m₁, rfl, stored⟩
  | @cons w piece ws ps made _ ih =>
      obtain ⟨start, ds, encoded, content⟩ := made
      obtain ⟨m₂, moved, written, whole⟩ := exists_storeInt laid power stored
        (sized w List.mem_cons_self) (fit w List.mem_cons_self) encoded (inside w List.mem_cons_self)
      have same : w.extent = piece.extent := by
        rw [Piece.extent, TagWrite.extent, start, content, AbsByte.length_ofData,
          Endian.length_of_encode encoded]
      rw [← start, ← content] at whole
      have kept : (Slice.overlay data piece.start piece.content).length = data.length :=
        Slice.length_overlay_of_inside data piece (same ▸ inside w List.mem_cons_self)
      obtain ⟨m', rest, all⟩ := ih (fun w hw => sized w (List.mem_cons_of_mem _ hw))
        (fun w hw => fit w (List.mem_cons_of_mem _ hw))
        (fun w hw => kept ▸ inside w (List.mem_cons_of_mem _ hw)) whole
      exact ⟨m', storeTag_cons_eq_ok_iff.2 ⟨_, m₂, moved, written, rest⟩, all⟩

/-! ## Memories that agree but for some bytes -/

/-- Memories differ in bytes only, and only in those that are said, by the number of their
allocation and their address. -/
structure Agree (but : Nat → Int → Prop) (m m' : Memory) : Prop where
  outline : m'.outline = m.outline
  bytes : ∀ (k : Nat) a a', m.allocations[k]? = some a → m'.allocations[k]? = some a' →
    ∀ i : Nat, ¬ but k (a.addr + i) → a'.contents[i]? = a.contents[i]?

/-- The bytes that the writes of a tag go to. -/
def TagBytes (p : Pointer) (ws : List TagWrite) (k : Nat) (addr : Int) : Prop :=
  p.provenance = some ⟨k⟩ ∧ ∃ w ∈ ws,
    p.addr + w.offset ≤ addr ∧ addr < p.addr + w.offset + w.ty.size

theorem TagBytes.mono {ws ws' : List TagWrite} (sub : ws ⊆ ws') {k : Nat} {addr : Int} :
    TagBytes p ws k addr → TagBytes p ws' k addr :=
  fun ⟨named, w, hw, bounds⟩ => ⟨named, w, sub hw, bounds⟩

namespace Agree

variable {but other : Nat → Int → Prop} {m' m'' : Memory}

theorem refl (m : Memory) : Agree but m m where
  outline := rfl
  bytes k a a' ha ha' i _ := by rw [Option.some.inj (ha.symm.trans ha')]

theorem mono (h : Agree but m m') (sub : ∀ k addr, but k addr → other k addr) : Agree other m m' where
  outline := h.outline
  bytes k a a' ha ha' i beside := h.bytes k a a' ha ha' i fun hit => beside (sub _ _ hit)

theorem trans (h : Agree but m m') (h' : Agree but m' m'') : Agree but m m'' where
  outline := h'.outline.trans h.outline
  bytes k a a'' ha ha'' i beside := by
    obtain ⟨a', ha', same⟩ := exists_of_outline_eq h'.outline ha''
    obtain ⟨a₀, ha₀, same₀⟩ := exists_of_outline_eq h.outline ha'
    obtain rfl := Option.some.inj (ha.symm.trans ha₀)
    have addr : a'.addr = a.addr := (Allocation.outline_eq_iff.1 same₀).2.1.symm
    rw [h'.bytes k a' a'' ha' ha'' i (addr ▸ beside), h.bytes k a a' ha ha' i beside]

/-- Memories that agree on all bytes are the same. -/
theorem eq (h : Agree (fun _ _ => False) m m') : m' = m := by
  have lists : m'.allocations = m.allocations := by
    apply List.ext_getElem?
    intro k
    cases found : m'.allocations[k]? with
    | none =>
        have length := length_of_outline_eq h.outline
        rw [List.getElem?_eq_none_iff] at found
        rw [List.getElem?_eq_none (by omega)]
    | some a' =>
        obtain ⟨a, ha, same⟩ := exists_of_outline_eq h.outline found
        obtain ⟨id, addr, align, kind, live, -⟩ := Allocation.outline_eq_iff.1 same
        have contents : a.contents = a'.contents :=
          List.ext_getElem? fun i => (h.bytes k a a' ha found i not_false).symm
        rw [ha]
        cases a
        cases a'
        simp only at id addr align kind live contents
        simp only [id, addr, align, kind, live, contents]
  have rest := h.outline
  cases m
  cases m'
  simp only [Memory.outline, Memory.mk.injEq] at rest
  simp only at lists
  simp only [lists, rest]

end Agree

/-- A store changes no bytes but those that it goes to. -/
theorem agree_of_store (numbered : m.Numbered) (stored : m.store p data align = .ok m₁) :
    Agree (fun k addr => p.provenance = some ⟨k⟩ ∧ p.addr ≤ addr ∧ addr < p.addr + data.length)
      m m₁ where
  outline := outline_of_store numbered stored
  bytes k a a' ha ha' i beside := by
    by_cases empty : data = []
    · obtain ⟨-, ⟨-, rfl⟩ | ⟨some, -⟩⟩ := store_eq_ok_iff.1 stored
      · rw [Option.some.inj (ha.symm.trans ha')]
      · exact absurd empty some
    obtain ⟨l, b, named, hb, hits, hb', others⟩ := exists_of_store numbered stored empty
    by_cases here : k = l
    · subst here
      obtain rfl := Option.some.inj (ha.symm.trans hb)
      obtain rfl := Option.some.inj (ha'.symm.trans hb')
      let piece : Piece AbsByte := ⟨p.addr - a.addr, data⟩
      have laid := Slice.getElem?_overlay a.contents piece hits.inside i
      simp only [piece, Piece.extent, Chunk.mem_iff] at laid
      rw [laid, if_neg fun covered => beside ⟨named, by omega, by omega⟩]
    · rw [others k here, ha] at ha'
      rw [Option.some.inj ha']

/-- The bytes that a store goes to are those that it was given. -/
theorem getElem?_contents_of_store (numbered : m.Numbered)
    (stored : m.store p data align = .ok m₁) {k : Nat} {b : Allocation}
    (hb : m₁.allocations[k]? = some b) (named : p.provenance = some ⟨k⟩) {i : Nat}
    (low : p.addr ≤ b.addr + i) (high : b.addr + i < p.addr + data.length) :
    b.contents[i]? = data[(b.addr + i - p.addr).toNat]? := by
  have filled : data ≠ [] := by
    rintro rfl
    simp only [List.length_nil] at high
    omega
  obtain ⟨l, a, named', -, hits, changed, -⟩ := exists_of_store numbered stored filled
  obtain rfl := number_unique named named'
  obtain rfl := Option.some.inj (hb.symm.trans changed)
  let piece : Piece AbsByte := ⟨p.addr - a.addr, data⟩
  have laid := Slice.getElem?_overlay a.contents piece hits.inside i
  simp only [piece, Piece.extent, Chunk.mem_iff] at laid low high ⊢
  rw [laid, if_pos (by omega)]
  congr 2
  omega

/-- Where memories differ in bytes only, what is stored to one of them can be stored to the other. -/
theorem exists_store_of_outline_eq {m' : Memory} (same : m'.outline = m.outline)
    (stored : m.store p data align = .ok m₁) : ∃ m₁', m'.store p data align = .ok m₁' := by
  obtain ⟨aligned, ⟨empty, -⟩ | ⟨some, a, hits, -⟩⟩ := store_eq_ok_iff.1 stored
  · exact ⟨m', store_eq_ok_iff.2 ⟨aligned, .inl ⟨empty, rfl⟩⟩⟩
  · obtain ⟨b, hits', -⟩ := hits.of_outline_eq same.symm
    exact ⟨_, store_eq_ok_iff.2 ⟨aligned, .inr ⟨some, b, hits', rfl⟩⟩⟩

/-- The same store makes memories agree on the bytes that it goes to, too. -/
theorem exists_store_of_agree {but : Nat → Int → Prop} {m' : Memory} (numbered : m.Numbered)
    (agree : Agree but m m') (stored : m.store p data align = .ok m₁) :
    ∃ m₁', m'.store p data align = .ok m₁' ∧ Agree (fun k addr => but k addr ∧
      ¬ (p.provenance = some ⟨k⟩ ∧ p.addr ≤ addr ∧ addr < p.addr + data.length)) m₁ m₁' := by
  have numbered' := numbered_of_outline_eq agree.outline numbered
  obtain ⟨m₁', stored'⟩ := exists_store_of_outline_eq agree.outline stored
  have first := agree_of_store numbered stored
  have second := agree_of_store numbered' stored'
  have outline : m₁'.outline = m₁.outline :=
    second.outline.trans (agree.outline.trans first.outline.symm)
  refine ⟨m₁', stored', outline, fun k b b' hb hb' i beside => ?_⟩
  obtain ⟨b₀, hb₀, same⟩ := exists_of_outline_eq outline hb'
  obtain rfl := Option.some.inj (hb.symm.trans hb₀)
  have addr' : b'.addr = b.addr := (Allocation.outline_eq_iff.1 same).2.1.symm
  by_cases here : p.provenance = some ⟨k⟩ ∧ p.addr ≤ b.addr + i ∧ b.addr + i < p.addr + data.length
  · -- both have the byte that was stored
    obtain ⟨named, low, high⟩ := here
    rw [getElem?_contents_of_store numbered' stored' hb' named (addr' ▸ low) (addr' ▸ high), addr',
      getElem?_contents_of_store numbered stored hb named low high]
  · -- the byte is the one that was there before, in either of them
    obtain ⟨a, ha, kept⟩ := exists_of_outline_eq first.outline hb
    obtain ⟨a', ha', kept'⟩ := exists_of_outline_eq second.outline hb'
    have addr : a.addr = b.addr := (Allocation.outline_eq_iff.1 kept).2.1
    have addr₁ : a'.addr = b.addr := (Allocation.outline_eq_iff.1 kept').2.1.trans addr'
    have apart : ¬ but k (a.addr + i) := fun hit => beside ⟨addr ▸ hit, here⟩
    rw [second.bytes k a' b' ha' hb' i (addr₁ ▸ here), agree.bytes k a a' ha ha' i apart,
      ← first.bytes k a b ha hb i (addr ▸ here)]

/-- To store the same again changes nothing. -/
theorem store_again (numbered : m.Numbered) (stored : m.store p data align = .ok m₁) :
    m₁.store p data align = .ok m₁ := by
  obtain ⟨m₂, again, agree⟩ := exists_store_of_agree numbered (agree_of_store numbered stored) stored
  rwa [(agree.mono fun _ _ both => both.2 both.1).eq] at again

/-! ## A tag alone -/

/-- Whether bytes may be accessed does not depend on what they are. -/
theorem dereferenceable_of_outline_eq {m' : Memory} {size : Int} (same : m'.outline = m.outline)
    (checked : m.dereferenceable p size align = .ok ()) :
    m'.dereferenceable p size align = .ok () := by
  simp only [dereferenceable, bind_eq_ok_iff, checkPtr_eq_ok_iff] at checked ⊢
  obtain ⟨o, ⟨aligned, hit⟩, -⟩ := checked
  rcases hit with ⟨empty, -⟩ | ⟨some, a, -, hits⟩
  · exact ⟨none, ⟨aligned, .inl ⟨empty, rfl⟩⟩, rfl⟩
  · obtain ⟨b, hits', -⟩ := hits.of_outline_eq same.symm
    exact ⟨_, ⟨aligned, .inr ⟨some, b, rfl, hits'⟩⟩, rfl⟩

/-- Whether a pointer may be moved does not depend on the bytes in memory. -/
theorem offsetInBounds_of_outline_eq {m' : Memory} (same : m'.outline = m.outline)
    (moved : m.offsetInBounds p d = .ok q) : m'.offsetInBounds p d = .ok q := by
  obtain ⟨size, addr, checked, rfl⟩ := offsetInBounds_eq_ok_iff.1 moved
  rw [← target_of_outline_eq same] at size addr
  exact offsetInBounds_eq_ok_iff.2 ⟨size, addr, dereferenceable_of_outline_eq same checked, rfl⟩

/-- A number is stored as its bytes, of which there are as many as its type has. -/
theorem exists_of_typedStore_int {t : IntTy} {n : Int}
    (stored : m.typedStore q (.int n) ⟨.int t, align⟩ = .ok m₁) :
    ∃ ds, t.canRepresent n = .ok true ∧ m.target.endian.encode n t.size t.signed = .ok ds ∧
      ((AbsByte.ofData ds none).length : Int) = t.size ∧
      m.store q (AbsByte.ofData ds none) align = .ok m₁ := by
  obtain ⟨data, made, stored⟩ := typedStore_eq_ok_iff.1 stored
  obtain ⟨wellFormed, made⟩ := Ty.encode_eq_ok_iff.1 made
  obtain ⟨_, ⟨⟩, fit⟩ := Ty.wellFormed_int_iff.1 wellFormed
  obtain ⟨ds, encoded, rfl⟩ := Ty.bytes_int_iff.1 made
  refine ⟨ds, fit, encoded, ?_, stored⟩
  rw [AbsByte.length_ofData, Endian.length_of_encode encoded]

/-- One write of a tag moves the pointer and stores the integer. -/
theorem exists_of_storeTag_cons {ws : List TagWrite} {m' : Memory}
    (h : storeTag p align (w :: ws) m = .ok m') :
    ∃ ds m₁, m.offsetInBounds p w.offset = .ok { p with addr := p.addr + w.offset } ∧
      w.ty.canRepresent w.value = .ok true ∧
      m.target.endian.encode w.value w.ty.size w.ty.signed = .ok ds ∧
      ((AbsByte.ofData ds none).length : Int) = w.ty.size ∧
      m.store { p with addr := p.addr + w.offset } (AbsByte.ofData ds none)
        (restrictAlign align w.offset) = .ok m₁ ∧
      storeTag p align ws m₁ = .ok m' := by
  obtain ⟨q, m₁, moved, written, rest⟩ := storeTag_cons_eq_ok_iff.1 h
  obtain ⟨-, -, -, rfl⟩ := offsetInBounds_eq_ok_iff.1 moved
  obtain ⟨ds, fit, encoded, length, stored⟩ := exists_of_typedStore_int written
  exact ⟨ds, m₁, moved, fit, encoded, length, stored, rest⟩

/-- A tag changes no bytes but its own. -/
theorem agree_of_storeTag (numbered : m.Numbered) {ws : List TagWrite} {m' : Memory}
    (h : storeTag p align ws m = .ok m') : Agree (TagBytes p ws) m m' := by
  induction ws generalizing m with
  | nil =>
      obtain rfl := Except.ok.inj h
      exact .refl m
  | cons w ws ih =>
      obtain ⟨ds, m₁, -, -, -, length, stored, rest⟩ := exists_of_storeTag_cons h
      have first := agree_of_store numbered stored
      have later := ih (numbered_of_outline_eq first.outline numbered) rest
      rw [length] at first
      refine (first.mono ?_).trans (later.mono fun _ _ => TagBytes.mono (List.subset_cons_self w ws))
      rintro k addr ⟨named, low, high⟩
      exact ⟨named, w, List.mem_cons_self, low, high⟩

/-- What stood in the bytes of a tag has no part in what it is when the tag was written. -/
theorem storeTag_of_agree (numbered : m.Numbered) {ws : List TagWrite} {n m' : Memory}
    (agree : Agree (TagBytes p ws) m n) (h : storeTag p align ws m = .ok m') :
    storeTag p align ws n = .ok m' := by
  induction ws generalizing m n with
  | nil =>
      obtain rfl := Except.ok.inj h
      have none : Agree (fun _ _ => False) m n := agree.mono fun k addr ⟨_, w, hw, _⟩ => nomatch hw
      rw [none.eq]
      rfl
  | cons w ws ih =>
      obtain ⟨ds, m₁, moved, fit, encoded, length, stored, rest⟩ := exists_of_storeTag_cons h
      obtain ⟨n₁, stored', after⟩ := exists_store_of_agree numbered agree stored
      have target := target_of_outline_eq agree.outline
      refine storeTag_cons_eq_ok_iff.2
        ⟨_, n₁, offsetInBounds_of_outline_eq agree.outline moved, ?_, ?_⟩
      · rw [typedStore_int fit (target ▸ encoded)]
        exact stored'
      · -- the bytes of this write agree by now
        refine ih (numbered_of_outline_eq (outline_of_store numbered stored) numbered)
          (after.mono ?_) rest
        rintro k addr ⟨⟨named, v, hv, bounds⟩, beside⟩
        rw [length] at beside
        rcases List.mem_cons.1 hv with rfl | hv
        · exact absurd ⟨named, bounds⟩ beside
        · exact ⟨named, v, hv, bounds⟩

/-- To write a tag again changes nothing. -/
theorem storeTag_again (numbered : m.Numbered) {ws : List TagWrite} {m' : Memory}
    (h : storeTag p align ws m = .ok m') : storeTag p align ws m' = .ok m' :=
  storeTag_of_agree numbered (agree_of_storeTag numbered h) h

/-- A number that was written in front is read there. -/
theorem decode_of_storeTag (laid : m.Laid) (power : PowerOfTwo align) {tag : IntTy} {n size : Int}
    {m' : Memory} (sized : 0 ≤ tag.size) (room : tag.size ≤ size)
    (h : storeTag p align [⟨0, tag, n⟩] m = .ok m') (loaded : m'.load p size align = .ok data) :
    tag.decode m.target (Slice.read data 0 (0 + tag.size)) = some n := by
  obtain ⟨ds, m₁, -, fit, encoded, length, stored, rest⟩ := exists_of_storeTag_cons h
  obtain rfl := Except.ok.inj rest
  have laid₁ := laid.of_outline_eq (outline_of_store laid.numbered stored)
  have found := load_of_store laid.numbered stored
  rw [length] at found
  have within : (Chunk.mk 0 tag.size).Inside size :=
    Chunk.inside_iff.2 (.inr ⟨Int.le_refl 0, by dsimp only; omega⟩)
  have part := load_part laid₁ power loaded sized within (dvd_refl 0)
  rw [Except.ok.inj (part.symm.trans found)]
  exact IntTy.decode_ofData encoded (IntTy.canRepresent_eq_true_iff.1 fit).2.1

end Memory

/-! ## How many bytes a payload has at least -/

theorem Slice.length_le_length_overlayAll {α : Type} (ps : List (Piece α)) (xs : List α) :
    xs.length ≤ (overlayAll ps xs).length := by
  induction ps generalizing xs with
  | nil => exact Nat.le_refl _
  | cons p ps ih => exact (length_le_length_overlay xs p.content p.start).trans (ih _)

theorem le_length_flatten {size : Int} {bss : List (List AbsByte)}
    (each : ∀ bs ∈ bss, size ≤ bs.length) : size * bss.length ≤ (bss.flatten.length : Int) := by
  induction bss with
  | nil => simp
  | cons bs bss ih =>
      have head := each bs List.mem_cons_self
      have tail := ih fun cs hcs => each cs (List.mem_cons_of_mem _ hcs)
      rw [List.flatten_cons, List.length_append, List.length_cons, Int.natCast_add, Int.natCast_add,
        Int.mul_add]
      omega

/-- A value has no fewer bytes than its type, if the payloads of enums are as long as the enums:
fields that stick out make it longer, and nothing makes it shorter. -/
theorem Ty.byteSize_le_length_bytes {target : Target} {ty : Ty} {v : Value} {out : List AbsByte}
    (fill : ty.Every (PayloadsFill target)) (wf : ty.wellFormed target v = .ok true)
    (h : ty.bytes target v = .ok out) : ty.byteSize target ≤ out.length := by
  have blank (n : Int) : n ≤ (AbsByte.blank n).length := by
    rw [AbsByte.length_blank]
    omega
  induction ty using Ty.induction generalizing v out with
  | bool =>
      obtain ⟨b, rfl⟩ := wellFormed_bool_iff.1 wf
      obtain rfl := Except.ok.inj h
      exact Int.le_refl 1
  | int t =>
      obtain ⟨n, rfl, _⟩ := wellFormed_int_iff.1 wf
      obtain ⟨ds, hds, rfl⟩ := bytes_int_iff.1 h
      rw [AbsByte.length_ofData, Endian.length_of_encode hds]
      exact Int.le_refl _
  | ptr t =>
      obtain ⟨p, rfl, _⟩ := wellFormed_ptr_iff.1 wf
      obtain ⟨ds, hds, rfl⟩ := bytes_ptr_iff.1 h
      rw [AbsByte.length_ofData, Endian.length_of_encode hds]
      exact Int.le_refl _
  | tuple fields size ih =>
      obtain ⟨vs, rfl, all⟩ := wellFormed_tuple_iff.1 wf
      obtain ⟨ps, -, rfl⟩ := (bytes_tuple_iff all.length_eq).1 h
      exact (blank size).trans (Int.ofNat_le.2 (Slice.length_le_length_overlayAll ps _))
  | array elem count ih =>
      obtain ⟨vs, rfl, number, all⟩ := wellFormed_array_iff.1 wf
      obtain ⟨bss, each, rfl⟩ := bytes_array_iff.1 h
      show elem.byteSize target * count ≤ _
      rw [← number, each.length_eq]
      refine le_length_flatten fun bs hbs => ?_
      obtain ⟨w, hw, hbytes⟩ := exists_of_forall₂ each hbs
      exact ih fill.elem (all w hw) hbytes
  | union u _ =>
      obtain ⟨bss, rfl, fit⟩ := wellFormed_union_iff.1 wf
      rw [bytes_union fit] at h
      obtain rfl := Except.ok.inj h
      exact (blank u.size).trans (Int.ofNat_le.2 (Slice.length_le_length_overlayAll _ _))
  | enum e ih _ =>
      obtain ⟨n, var, payload, rfl, hvar, wf⟩ := wellFormed_enum_iff.1 wf
      obtain ⟨bytes, ps, hbytes, -, rfl⟩ := (bytes_enum_iff hvar).1 h
      have mem := List.mem_of_getElem? hvar
      have size : var.ty.byteSize target = e.size := fill.here var mem
      have payload := ih var mem (fill.payload mem) wf hbytes
      show e.size ≤ _
      rw [← size]
      exact payload.trans (Int.ofNat_le.2 (Slice.length_le_length_overlayAll ps bytes))

/-! ## Whole variants -/

/-- An enum whose tags can be written into it: the payloads have the size of the enum, and so in the
enums inside of them; and each integer of a tag has bytes, which hold it, inside the enum. -/
structure EnumTy.Taggable (target : Target) (e : EnumTy) : Prop where
  fill : (Ty.enum e).Every (Ty.PayloadsFill target)
  fit : (Ty.enum e).TagsFit
  inside : (Ty.enum e).TagsInside
  sized : ∀ v ∈ e.variants, ∀ w ∈ v.tagger, 1 ≤ w.ty.size

namespace Memory

variable {m m₁ m' : Memory} {p : Pointer} {align i : Int} {data bytes : List AbsByte} {e : EnumTy}
  {v : Value}

/-- The tags of an enum lie inside the bytes of its payloads. -/
theorem inside_of_taggable {target : Target} {variant : Variant} (taggable : e.Taggable target)
    (mem : variant ∈ e.variants) (wf : variant.ty.wellFormed target v = .ok true)
    (made : variant.ty.bytes target v = .ok bytes) :
    ∀ w ∈ variant.tagger, w.extent.Inside bytes.length := by
  have least := Ty.byteSize_le_length_bytes (taggable.fill.payload mem) wf made
  have size : variant.ty.byteSize target = e.size := taggable.fill.here variant mem
  intro w hw
  exact (taggable.inside variant mem w hw).mono (size ▸ least)

/-- Where some bytes were stored, as many other ones could have been. -/
theorem exists_store_of_length_eq (numbered : m.Numbered) (stored : m.store p data align = .ok m₁)
    (length : bytes.length = data.length) : ∃ m', m.store p bytes align = .ok m' := by
  obtain ⟨_, loaded⟩ := exists_load_of_outline_eq (outline_of_store numbered stored)
    (load_of_store numbered stored)
  exact exists_store_of_load (length ▸ loaded)

/-- To store a variant is to store its payload, and its tag after that. -/
theorem typedStore_variant_iff (laid : m.Laid) (power : PowerOfTwo align)
    (taggable : e.Taggable m.target) :
    m.typedStore p (.variant i v) ⟨.enum e, align⟩ = .ok m' ↔
      ∃ variant m₁, e.variantAt i = .ok variant ∧
        m.typedStore p v ⟨variant.ty, align⟩ = .ok m₁ ∧
          storeTag p align variant.tagger m₁ = .ok m' := by
  constructor
  · intro h
    obtain ⟨data, encoded, stored⟩ := typedStore_eq_ok_iff.1 h
    obtain ⟨whole, laidOver⟩ := Ty.encode_eq_ok_iff.1 encoded
    obtain ⟨k, variant, payload, same, at_, wf⟩ := Ty.wellFormed_enum_iff.1 whole
    obtain ⟨rfl, rfl⟩ := Value.variant.inj same
    obtain ⟨bytes, ps, made, pieces, rfl⟩ := (Ty.bytes_enum_iff at_).1 laidOver
    have mem := List.mem_of_getElem? at_
    have inside := inside_of_taggable taggable mem wf made
    have length := Slice.length_overlayAll (inside_of_map_extent pieces.map_extent inside)
    obtain ⟨m₁, first⟩ := exists_store_of_length_eq laid.numbered stored length.symm
    obtain ⟨last, tag, whole⟩ := store_of_storeTag laid power pieces (taggable.sized variant mem)
      (taggable.fit variant mem) inside first
    obtain rfl := Except.ok.inj (whole.symm.trans stored)
    refine ⟨variant, m₁, elementAt_eq_ok_iff.2 ⟨k, rfl, at_⟩, ?_, tag⟩
    exact typedStore_eq_ok_iff.2 ⟨bytes, Ty.encode_eq_ok_iff.2 ⟨wf, made⟩, first⟩
  · rintro ⟨variant, m₁, has, payload, tag⟩
    obtain ⟨bytes, encoded, stored⟩ := typedStore_eq_ok_iff.1 payload
    obtain ⟨wf, made⟩ := Ty.encode_eq_ok_iff.1 encoded
    obtain ⟨k, rfl, at_⟩ := elementAt_eq_ok_iff.1 has
    have mem := List.mem_of_getElem? at_
    obtain ⟨ps, pieces⟩ := exists_tagPieces m.target (taggable.fit variant mem)
    obtain ⟨last, tag', whole⟩ := store_of_storeTag laid power pieces (taggable.sized variant mem)
      (taggable.fit variant mem) (inside_of_taggable taggable mem wf made) stored
    obtain rfl := Except.ok.inj (tag'.symm.trans tag)
    refine typedStore_eq_ok_iff.2 ⟨_, Ty.encode_eq_ok_iff.2 ⟨?_, ?_⟩, whole⟩
    · exact Ty.wellFormed_enum_iff.2 ⟨k, variant, v, rfl, at_, wf⟩
    · exact (Ty.bytes_enum_iff at_).2 ⟨bytes, ps, made, pieces, rfl⟩

end Memory

end AbstractMachine
