/-
# AbstractMachine.Proofs.Overlay — pieces laid over a buffer

The fields of a tuple, the chunks of a union and the tag of an enum reach memory in one way: pieces
with positions are laid over a buffer, first to last, and a later piece hides what it covers of the
earlier ones. This module states what that does to a single position.

A piece is *inside* a buffer if the positions it covers are positions of the buffer. This says
nothing of a piece without content, which may stand anywhere: it writes nothing. Two pieces are
*apart* if no position belongs to both. For pieces inside the buffer a position reads what some
piece over it says, or the buffer where there is none (`getElem?_overlayAll`), and pieces that are
apart can all be read back (`read_overlayAll`).
-/
import AbstractMachine.Slice
import AbstractMachine.Ty

namespace AbstractMachine

/-! ## Ranges -/

namespace Chunk

/-- The positions of a range. -/
instance : Membership Int Chunk where
  mem c i := c.start ≤ i ∧ i < c.start + c.size

theorem mem_iff {c : Chunk} {i : Int} : i ∈ c ↔ c.start ≤ i ∧ i < c.start + c.size :=
  Iff.rfl

instance (c : Chunk) (i : Int) : Decidable (i ∈ c) :=
  decidable_of_iff _ mem_iff.symm

/-- The positions of a range are positions of a buffer of this size. -/
def Inside (c : Chunk) (size : Int) : Prop :=
  ∀ i ∈ c, 0 ≤ i ∧ i < size

/-- Two ranges have no position in common. -/
def Apart (c d : Chunk) : Prop :=
  ∀ i ∈ c, i ∉ d

theorem inside_iff {c : Chunk} {size : Int} :
    c.Inside size ↔ c.size ≤ 0 ∨ (0 ≤ c.start ∧ c.start + c.size ≤ size) := by
  constructor
  · intro inside
    by_cases empty : c.size ≤ 0
    · exact Or.inl empty
    · have first := inside c.start (mem_iff.2 (by omega))
      have last := inside (c.start + c.size - 1) (mem_iff.2 (by omega))
      exact Or.inr (by omega)
  · intro bounds i hi
    rw [mem_iff] at hi
    omega

theorem apart_iff {c d : Chunk} :
    c.Apart d ↔ c.size ≤ 0 ∨ d.size ≤ 0 ∨
      c.start + c.size ≤ d.start ∨ d.start + d.size ≤ c.start := by
  constructor
  · intro apart
    -- The larger of the two starts is the position to look at.
    have clash := apart (max c.start d.start)
    simp only [mem_iff] at clash
    omega
  · intro bounds i hc hd
    rw [mem_iff] at hc hd
    omega

/-- The range, with no positions instead of a negative number of them. -/
def clip (c : Chunk) : Chunk where
  start := c.start
  size := c.size.toNat

@[simp] theorem mem_clip_iff {c : Chunk} {i : Int} : i ∈ c.clip ↔ i ∈ c := by
  simp only [mem_iff, clip]
  omega

/-- A buffer of a negative size has no more positions than one without any. -/
theorem Inside.toNat {c : Chunk} {size : Int} (h : c.Inside size) : c.Inside size.toNat := by
  intro i hi
  have place := h i hi
  omega

theorem Inside.clip {c : Chunk} {size : Int} (h : c.Inside size) : c.clip.Inside size.toNat :=
  fun i hi => h.toNat i (mem_clip_iff.1 hi)

theorem Apart.clip {c d : Chunk} (h : c.Apart d) : c.clip.Apart d.clip :=
  fun i hc hd => h i (mem_clip_iff.1 hc) (mem_clip_iff.1 hd)

instance (c : Chunk) (size : Int) : Decidable (c.Inside size) :=
  decidable_of_iff _ inside_iff.symm

instance (c d : Chunk) : Decidable (c.Apart d) :=
  decidable_of_iff _ apart_iff.symm

end Chunk

/-! ## One piece -/

/-- Elements, and the position that they go to. -/
structure Piece (α : Type) where
  start : Int
  content : List α

variable {α : Type}

/-- The positions that a piece covers. -/
def Piece.extent (p : Piece α) : Chunk where
  start := p.start
  size := p.content.length

namespace Slice

theorem read_self (xs : List α) (start : Int) : read xs start start = [] := by
  simp [read]

@[simp] theorem overlay_nil (xs : List α) (start : Int) : overlay xs start [] = xs := by
  simp [overlay, write]

/-- Reading all positions of a buffer gives the buffer. -/
theorem read_of_length_eq {xs : List α} {size : Int} (same : (xs.length : Int) = size) :
    read xs 0 (0 + size) = xs := by
  rw [read_eq xs (by omega) (by omega), ← same]
  simp

/-- Inside a buffer, an overlay is a prefix, the new elements and the rest. -/
theorem overlay_eq (xs new : List α) {s : Nat} (fit : s + new.length ≤ xs.length) :
    overlay xs s new = xs.take s ++ new ++ xs.drop (s + new.length) := by
  have first : position xs.length (s : Int) = s := by
    rw [position_of_nonneg (by omega)]; omega
  have last : position xs.length ((s : Int) + new.length) = s + new.length := by
    rw [position_of_nonneg (by omega)]; omega
  rw [overlay, write, first, last, Nat.max_eq_right (by omega)]

/-- An overlay as long as the buffer replaces all of it. -/
theorem overlay_of_length_eq {xs new : List α} (same : new.length = xs.length) :
    overlay xs 0 new = new := by
  have fit : 0 + new.length ≤ xs.length := by omega
  rw [show (0 : Int) = ((0 : Nat) : Int) from rfl, overlay_eq xs new fit, same]
  simp

/-- What is laid over the front is found there, however short the buffer was. -/
theorem read_overlay_front (xs new : List α) : read (overlay xs 0 new) 0 (0 + new.length) = new := by
  have first : position xs.length 0 = 0 := by
    rw [position_of_nonneg (Int.le_refl 0)]
    simp
  rw [read_eq _ (Int.le_refl 0) (Int.natCast_nonneg _), overlay, write, first]
  simp

/-- Reading inside a buffer finds the elements from the start on. -/
theorem getElem?_read (xs : List α) {start size : Int} (nonneg : 0 ≤ size)
    (inside : (Chunk.mk start size).Inside xs.length) (j : Nat) :
    (read xs start (start + size))[j]? =
      if (j : Int) < size then xs[(start + j).toNat]? else none := by
  rcases Chunk.inside_iff.1 inside with empty | ⟨low, high⟩
  · have zero : size = 0 := by simp only at empty; omega
    rw [zero, Int.add_zero, read_self, if_neg (by omega), List.getElem?_nil]
  · simp only at low high
    rw [read_eq xs low nonneg, List.getElem?_take]
    by_cases hj : (j : Int) < size
    · rw [if_pos (by omega), if_pos hj, List.getElem?_drop]
      congr 1
      omega
    · rw [if_neg (by omega), if_neg hj]

theorem length_read (xs : List α) {start size : Int} (nonneg : 0 ≤ size)
    (inside : (Chunk.mk start size).Inside xs.length) :
    ((read xs start (start + size)).length : Int) = size := by
  rcases Chunk.inside_iff.1 inside with empty | ⟨low, high⟩
  · have zero : size = 0 := by simp only at empty; omega
    rw [zero, Int.add_zero, read_self]
    rfl
  · simp only at low high
    rw [read_eq xs low nonneg, List.length_take, List.length_drop]
    omega

/-- What an overlay does to one position. -/
theorem getElem?_overlay (xs : List α) (p : Piece α) (inside : p.extent.Inside xs.length)
    (i : Nat) :
    (overlay xs p.start p.content)[i]? =
      if (i : Int) ∈ p.extent then p.content[(i - p.start).toNat]? else xs[i]? := by
  rcases Chunk.inside_iff.1 inside with empty | ⟨low, high⟩
  · have nil : p.content = [] := List.length_eq_zero_iff.1 (by simpa [Piece.extent] using empty)
    have outside : (i : Int) ∉ p.extent := by
      rw [Chunk.mem_iff, Piece.extent, nil]
      simp
    rw [nil, overlay_nil, if_neg outside]
  · obtain ⟨start, content⟩ := p
    obtain ⟨s, rfl⟩ := Int.eq_ofNat_of_zero_le low
    simp only [Piece.extent] at high
    rw [overlay_eq xs content (by omega), List.append_assoc]
    simp only [Chunk.mem_iff, Piece.extent]
    by_cases before : i < s
    · rw [if_neg (by omega), List.getElem?_append_left (by simp; omega), List.getElem?_take,
        if_pos before]
    · rw [List.getElem?_append_right (by simp; omega), List.length_take,
        Nat.min_eq_left (by omega)]
      by_cases within : i < s + content.length
      · rw [if_pos (by omega), List.getElem?_append_left (by omega)]
        congr 1
        omega
      · rw [if_neg (by omega), List.getElem?_append_right (by omega), List.getElem?_drop]
        congr 1
        omega

theorem length_overlay_of_inside (xs : List α) (p : Piece α) (inside : p.extent.Inside xs.length) :
    (overlay xs p.start p.content).length = xs.length := by
  rcases Chunk.inside_iff.1 inside with empty | ⟨low, high⟩
  · have nil : p.content = [] := List.length_eq_zero_iff.1 (by simpa [Piece.extent] using empty)
    rw [nil, overlay_nil]
  · exact length_overlay xs p.content low high

/-- Writing back what was read changes nothing. -/
theorem overlay_read (xs : List α) {start size : Int} (nonneg : 0 ≤ size)
    (inside : (Chunk.mk start size).Inside xs.length) :
    overlay xs start (read xs start (start + size)) = xs := by
  have extent : (Piece.mk start (read xs start (start + size))).extent = ⟨start, size⟩ := by
    rw [Piece.extent, length_read xs nonneg inside]
  apply List.ext_getElem?
  intro i
  rw [getElem?_overlay xs ⟨start, _⟩ (extent ▸ inside), extent]
  dsimp only
  rw [getElem?_read xs nonneg inside]
  by_cases hi : (i : Int) ∈ Chunk.mk start size
  · rw [if_pos hi]
    rw [Chunk.mem_iff] at hi
    dsimp only at hi
    rw [if_pos (by omega)]
    congr 1
    omega
  · rw [if_neg hi]

/-- A range inside of a range. -/
theorem read_read (xs : List α) {start size d n : Int} (nonneg : 0 ≤ size)
    (inside : (Chunk.mk start size).Inside xs.length) (nonneg' : 0 ≤ n)
    (within : (Chunk.mk d n).Inside size) :
    read (read xs start (start + size)) d (d + n) = read xs (start + d) (start + d + n) := by
  have length := length_read xs nonneg inside
  have outer : (Chunk.mk (start + d) n).Inside xs.length := by
    rw [Chunk.inside_iff] at inside within ⊢
    dsimp only at inside within ⊢
    omega
  apply List.ext_getElem?
  intro j
  rw [getElem?_read _ nonneg' (by rwa [length]), getElem?_read xs nonneg' outer]
  by_cases hj : (j : Int) < n
  · rw [Chunk.inside_iff] at within
    dsimp only at within
    rw [if_pos hj, if_pos hj, getElem?_read xs nonneg inside, if_pos (by omega)]
    congr 1
    omega
  · rw [if_neg hj, if_neg hj]

/-- An overlay is not seen where it does not lie. -/
theorem read_overlay_of_apart (xs : List α) (p : Piece α) (inside : p.extent.Inside xs.length)
    {start size : Int} (nonneg : 0 ≤ size) (within : (Chunk.mk start size).Inside xs.length)
    (apart : p.extent.Apart ⟨start, size⟩) :
    read (overlay xs p.start p.content) start (start + size) = read xs start (start + size) := by
  have kept := length_overlay_of_inside xs p inside
  apply List.ext_getElem?
  intro j
  rw [getElem?_read _ nonneg (by rwa [kept]), getElem?_read xs nonneg within]
  by_cases hj : (j : Int) < size
  · have hi : start + j ∈ Chunk.mk start size := by
      rw [Chunk.mem_iff]
      dsimp only
      omega
    have place := within _ hi
    rw [if_pos hj, if_pos hj, getElem?_overlay xs p inside, if_neg]
    rw [Int.toNat_of_nonneg place.1]
    exact fun covered => apart _ covered hi
  · rw [if_neg hj, if_neg hj]

/-! ## Many pieces -/

/-- Lay pieces over a buffer, first to last. -/
def overlayAll (pieces : List (Piece α)) (xs : List α) : List α :=
  pieces.foldl (fun ys p => overlay ys p.start p.content) xs

@[simp] theorem overlayAll_nil (xs : List α) : overlayAll [] xs = xs := rfl

@[simp] theorem overlayAll_cons (p : Piece α) (ps : List (Piece α)) (xs : List α) :
    overlayAll (p :: ps) xs = overlayAll ps (overlay xs p.start p.content) := rfl

theorem length_overlayAll {ps : List (Piece α)} {xs : List α}
    (inside : ∀ p ∈ ps, p.extent.Inside xs.length) : (overlayAll ps xs).length = xs.length := by
  induction ps generalizing xs with
  | nil => rfl
  | cons p ps ih =>
      have kept := length_overlay_of_inside xs p (inside p List.mem_cons_self)
      rw [overlayAll_cons, ih, kept]
      intro q hq
      rw [kept]
      exact inside q (List.mem_cons_of_mem p hq)

/-- A position reads what some piece over it says, or what was there if no piece covers it. -/
theorem getElem?_overlayAll {ps : List (Piece α)} {xs : List α}
    (inside : ∀ p ∈ ps, p.extent.Inside xs.length) (i : Nat) :
    (∃ p ∈ ps, (i : Int) ∈ p.extent ∧
      (overlayAll ps xs)[i]? = p.content[(i - p.start).toNat]?) ∨
    (∀ p ∈ ps, (i : Int) ∉ p.extent) ∧ (overlayAll ps xs)[i]? = xs[i]? := by
  induction ps generalizing xs with
  | nil => exact Or.inr ⟨by simp, rfl⟩
  | cons p ps ih =>
      have here := inside p List.mem_cons_self
      have kept := length_overlay_of_inside xs p here
      have rest : ∀ q ∈ ps, q.extent.Inside (overlay xs p.start p.content).length := fun q hq =>
        kept ▸ inside q (List.mem_cons_of_mem p hq)
      rw [overlayAll_cons]
      rcases ih rest with ⟨q, hq, hi, eq⟩ | ⟨uncovered, eq⟩
      · exact Or.inl ⟨q, List.mem_cons_of_mem p hq, hi, eq⟩
      · rw [eq, getElem?_overlay xs p here]
        by_cases hi : (i : Int) ∈ p.extent
        · rw [if_pos hi]
          exact Or.inl ⟨p, List.mem_cons_self, hi, rfl⟩
        · rw [if_neg hi]
          exact Or.inr ⟨List.forall_mem_cons.2 ⟨hi, uncovered⟩, rfl⟩

/-- A position that no piece covers keeps its element. -/
theorem getElem?_overlayAll_of_forall {ps : List (Piece α)} {xs : List α}
    (inside : ∀ p ∈ ps, p.extent.Inside xs.length) {i : Nat}
    (uncovered : ∀ p ∈ ps, (i : Int) ∉ p.extent) : (overlayAll ps xs)[i]? = xs[i]? := by
  rcases getElem?_overlayAll inside i with ⟨p, hp, hi, _⟩ | ⟨_, same⟩
  · exact absurd hi (uncovered p hp)
  · exact same

/-- What lies under the pieces does not show at a position that one of them covers. -/
theorem getElem?_overlayAll_congr {ps : List (Piece α)} {xs ys : List α}
    (same : ys.length = xs.length) (inside : ∀ p ∈ ps, p.extent.Inside xs.length) {i : Nat}
    (covered : ∃ p ∈ ps, (i : Int) ∈ p.extent) : (overlayAll ps xs)[i]? = (overlayAll ps ys)[i]? := by
  induction ps generalizing xs ys with
  | nil => simp at covered
  | cons p ps ih =>
      have here := inside p List.mem_cons_self
      have here' : p.extent.Inside ys.length := same ▸ here
      have kept := length_overlay_of_inside xs p here
      have kept' := length_overlay_of_inside ys p here'
      have rest : ∀ q ∈ ps, q.extent.Inside (overlay xs p.start p.content).length := fun q hq =>
        kept ▸ inside q (List.mem_cons_of_mem p hq)
      simp only [overlayAll_cons]
      by_cases later : ∃ q ∈ ps, (i : Int) ∈ q.extent
      · exact ih (by rw [kept, kept', same]) rest later
      · have uncovered : ∀ q ∈ ps, (i : Int) ∉ q.extent := fun q hq hi => later ⟨q, hq, hi⟩
        have hi : (i : Int) ∈ p.extent := by
          obtain ⟨q, hq, hi⟩ := covered
          rcases List.mem_cons.1 hq with rfl | hq
          · exact hi
          · exact absurd hi (uncovered q hq)
        rw [getElem?_overlayAll_of_forall rest uncovered,
          getElem?_overlayAll_of_forall (by rwa [kept', same, ← kept]) uncovered,
          getElem?_overlay xs p here, getElem?_overlay ys p here', if_pos hi, if_pos hi]

/-- Pieces that are apart can all be read back. -/
theorem read_overlayAll {ps : List (Piece α)} {xs : List α}
    (inside : ∀ p ∈ ps, p.extent.Inside xs.length)
    (apart : ps.Pairwise fun p q => p.extent.Apart q.extent) {p : Piece α} (hp : p ∈ ps) :
    read (overlayAll ps xs) p.start (p.start + p.content.length) = p.content := by
  induction ps generalizing xs with
  | nil => simp at hp
  | cons q ps ih =>
      have here := inside q List.mem_cons_self
      have kept := length_overlay_of_inside xs q here
      have rest : ∀ r ∈ ps, r.extent.Inside (overlay xs q.start q.content).length := fun r hr =>
        kept ▸ inside r (List.mem_cons_of_mem q hr)
      rw [List.pairwise_cons] at apart
      rw [overlayAll_cons]
      rcases List.mem_cons.1 hp with rfl | hp
      · have fits : p.extent.Inside (overlayAll ps (overlay xs p.start p.content)).length := by
          rwa [length_overlayAll rest, kept]
        apply List.ext_getElem?
        intro j
        rw [getElem?_read _ (by omega) fits]
        by_cases hj : (j : Int) < p.content.length
        · have bounds := Chunk.inside_iff.1 here
          simp only [Piece.extent] at bounds
          have hi : ((p.start + j).toNat : Int) ∈ p.extent := by
            rw [Chunk.mem_iff, Piece.extent]
            simp only
            omega
          rw [if_pos hj, getElem?_overlayAll_of_forall rest fun r hr => apart.1 r hr _ hi,
            getElem?_overlay xs p here, if_pos hi]
          congr 1
          omega
        · rw [if_neg hj, List.getElem?_eq_none (by omega)]
      · exact ih rest apart.2 hp

end Slice

end AbstractMachine
