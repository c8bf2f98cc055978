/-
# AbstractMachine.Proofs.Layout.Chunks — the chunks of a union are the maximal covered ranges

Ranges that come in order and do not touch are determined by the bytes in them
(`Separated.eq_of_covers`): the first range begins at the least of these bytes and ends at the first
byte that is missing, and the ranges behind it hold the rest. So nothing else than the bytes that
the fields cover can show in the chunks of a union, neither the order of the fields nor how they
overlap.
-/
import AbstractMachine.Proofs.Layout.Ranges

namespace AbstractMachine

variable {target : Target}

/-! ## Separated ranges -/

/-- Ranges in order, none of them empty and none of them touching the next one. -/
structure Separated (chunks : List Chunk) : Prop where
  nonempty : ∀ c ∈ chunks, 0 < c.size
  ordered : chunks.Pairwise fun c d => c.start + c.size < d.start

namespace Separated

variable {c d : Chunk} {cs ds : List Chunk}

theorem tail (h : Separated (c :: cs)) : Separated cs :=
  ⟨fun e he => h.nonempty e (.tail _ he), h.ordered.of_cons⟩

theorem mem_head (h : Separated (c :: cs)) : c.start ∈ c := by
  have := h.nonempty c (.head _)
  rw [Chunk.mem_iff]
  omega

/-- No range begins before the first one. -/
theorem head_le (h : Separated (c :: cs)) {e : Chunk} (he : e ∈ c :: cs) : c.start ≤ e.start := by
  rcases List.mem_cons.1 he with rfl | he
  · exact Int.le_refl _
  · have := List.rel_of_pairwise_cons h.ordered he
    have := h.nonempty c (.head _)
    omega

/-- The byte behind a range is in none of the ranges. -/
theorem not_mem_behind (h : Separated cs) (hc : c ∈ cs) {e : Chunk} (he : e ∈ cs) :
    c.start + c.size ∉ e := by
  have before : cs.Pairwise fun c e => c.start + c.size ∉ e :=
    h.ordered.imp fun before => by rw [Chunk.mem_iff]; omega
  have after : cs.Pairwise fun c e => e.start + e.size ∉ c := by
    refine h.ordered.imp_of_mem fun {c e} _ he before => ?_
    have := h.nonempty e he
    rw [Chunk.mem_iff]
    omega
  exact before.forall_of_forall_of_flip (fun c _ => by simp [Chunk.mem_iff]) after hc he

theorem mem_tail_iff (h : Separated (c :: cs)) {k : Int} :
    (∃ e ∈ cs, k ∈ e) ↔ (∃ e ∈ c :: cs, k ∈ e) ∧ k ∉ c := by
  constructor
  · rintro ⟨e, he, hk⟩
    have behind := List.rel_of_pairwise_cons h.ordered he
    refine ⟨⟨e, .tail _ he, hk⟩, ?_⟩
    rw [Chunk.mem_iff] at hk ⊢
    omega
  · rintro ⟨⟨e, he, hk⟩, not_first⟩
    rcases List.mem_cons.1 he with rfl | he
    · exact absurd hk not_first
    · exact ⟨e, he, hk⟩

/-- A first range that others cover begins where they begin or later. If it begins there, the first of
them ends no earlier. -/
theorem head_within (h : Separated (c :: cs)) (h' : Separated (d :: ds))
    (within : ∀ k, k ∈ c → ∃ e ∈ d :: ds, k ∈ e) :
    d.start ≤ c.start ∧ (c.start = d.start → c.start + c.size ≤ d.start + d.size) := by
  constructor
  · obtain ⟨e, he, hk⟩ := within _ h.mem_head
    exact (h'.head_le he).trans (Chunk.mem_iff.1 hk).1
  · intro same
    by_contra longer
    have := h'.nonempty d (.head _)
    obtain ⟨e, he, hk⟩ := within (d.start + d.size) (Chunk.mem_iff.2 (by omega))
    exact h'.not_mem_behind (.head _) he hk

/-- Two lists of separated ranges with the same bytes in them are equal. -/
theorem eq_of_covers (h : Separated cs) (h' : Separated ds)
    (same : ∀ k, (∃ c ∈ cs, k ∈ c) ↔ ∃ d ∈ ds, k ∈ d) : cs = ds := by
  -- The first ranges begin together and end together, since each is covered by the other list. Without
  -- them the bytes are the same again.
  induction cs generalizing ds with
  | nil =>
      cases ds with
      | nil => rfl
      | cons d ds => exact absurd ((same d.start).2 ⟨d, .head _, h'.mem_head⟩) (by simp)
  | cons c cs ih =>
      cases ds with
      | nil => exact absurd ((same c.start).1 ⟨c, .head _, h.mem_head⟩) (by simp)
      | cons d ds =>
          obtain ⟨low, high⟩ := h.head_within h' fun k hk => (same k).1 ⟨c, .head _, hk⟩
          obtain ⟨low', high'⟩ := h'.head_within h fun k hk => (same k).2 ⟨d, .head _, hk⟩
          have first : c = d := by
            rcases c with ⟨start, size⟩
            rcases d with ⟨start', size'⟩
            simp only at low high low' high'
            rw [Chunk.mk.injEq]
            omega
          subst first
          rw [ih h.tail h'.tail fun k => by rw [h.mem_tail_iff, h'.mem_tail_iff, same k]]

end Separated

/-! ## Maximal ranges -/

/-- Ranges inside a size that hold the bytes which some field covers, and no others. They come in order,
and between two of them there is a byte that no field covers. -/
structure MaximalRanges (target : Target) (fields : List Field) (size : Int) (chunks : List Chunk) :
    Prop where
  nonempty : ∀ c ∈ chunks, 0 < c.size
  inside : ∀ c ∈ chunks, 0 ≤ c.start ∧ c.start + c.size ≤ size
  ordered : chunks.Pairwise fun c d => c.start < d.start ∧
    ∃ k, c.start + c.size ≤ k ∧ k < d.start ∧ ∀ f ∈ fields, k ∉ f.extent target
  covered : ∀ k, (∃ c ∈ chunks, k ∈ c) ↔ ∃ f ∈ fields, k ∈ f.extent target

namespace MaximalRanges

variable {fields fields' : List Field} {size : Int} {chunks chunks' : List Chunk}

theorem separated (h : MaximalRanges target fields size chunks) : Separated chunks where
  nonempty := h.nonempty
  ordered := h.ordered.imp fun ⟨_, _, behind, before, _⟩ => by omega

/-- There is one list of maximal ranges at most, and it depends on the covered bytes alone. -/
theorem unique (h : MaximalRanges target fields size chunks)
    (h' : MaximalRanges target fields' size chunks')
    (same : ∀ k, (∃ f ∈ fields, k ∈ f.extent target) ↔ ∃ f ∈ fields', k ∈ f.extent target) :
    chunks = chunks' :=
  h.separated.eq_of_covers h'.separated fun k => by rw [h.covered, h'.covered, same]

end MaximalRanges

/-- What is computed as the chunks of fields that lie inside are their maximal ranges. -/
theorem maximalRanges_of_chunksOf {fields : List Field} {size : Int} {chunks : List Chunk}
    (nonneg : 0 ≤ size)
    (inside : ∀ f ∈ fields, 0 ≤ f.offset ∧ f.offset + f.ty.byteSize target ≤ size)
    (h : chunksOf target fields size = .ok chunks) : MaximalRanges target fields size chunks := by
  obtain ⟨between, ordered⟩ := chunks_of_chunksOf h
  have separated : Separated chunks := ⟨fun c hc => (between c hc).2.1, ordered⟩
  have covered (k : Int) := mem_chunks_iff (k := k) h inside
  refine ⟨separated.nonempty, fun c hc => ?_, ?_, covered⟩
  · have := between c hc
    omega
  · refine ordered.imp_of_mem fun {c d} hc _ before => ⟨?_, _, Int.le_refl _, before, ?_⟩
    · have := separated.nonempty c hc
      omega
    · intro f hf hk
      obtain ⟨e, he, hk⟩ := (covered _).2 ⟨f, hf, hk⟩
      exact separated.not_mem_behind hc he hk

/-- A field that reaches beyond the size has no chunks, unless there is nothing in it. -/
theorem chunksOf_of_beyond {fields : List Field} {size : Int} {f : Field}
    (hf : f ∈ fields) (nonempty : 0 < f.ty.byteSize target)
    (beyond : size < f.offset + f.ty.byteSize target) :
    chunksOf target fields size = .error (.arithmetic .indexOutOfRange) := by
  have outside : inBuffer size.toNat f.offset (f.ty.byteSize target) = false := by
    simp only [inBuffer, Bool.or_eq_false_iff, Bool.and_eq_false_iff, decide_eq_false_iff_not]
    omega
  have all : (fields.all fun f => inBuffer size.toNat f.offset (f.ty.byteSize target)) = false :=
    List.all_eq_false.2 ⟨f, hf, by simp [outside]⟩
  rw [chunksOf, all]
  rfl

/-- The chunks of fields that lie inside a size are their maximal ranges, in whatever order the fields
come. A field that is not empty and reaches beyond the size has no chunks. -/
theorem chunksOf_maximal {size : Int} (nonneg : 0 ≤ size) (fields : List Field) :
    ((∀ f ∈ fields, 0 ≤ f.offset ∧ f.offset + f.ty.byteSize target ≤ size) →
      ∃ chunks, MaximalRanges target fields size chunks ∧
        ∀ fields', fields'.Perm fields → chunksOf target fields' size = .ok chunks) ∧
    ((∃ f ∈ fields, 0 < f.ty.byteSize target ∧ size < f.offset + f.ty.byteSize target) →
      chunksOf target fields size = .error (.arithmetic .indexOutOfRange)) := by
  constructor
  · intro inside
    obtain ⟨chunks, made⟩ := exists_chunksOf inside
    have maximal := maximalRanges_of_chunksOf nonneg inside made
    refine ⟨chunks, maximal, fun fields' perm => ?_⟩
    have inside' := fun f hf => inside f (perm.mem_iff.1 hf)
    -- What is made of another order covers the same bytes, and nothing else can differ.
    obtain ⟨chunks', made'⟩ := exists_chunksOf inside'
    have maximal' := maximalRanges_of_chunksOf nonneg inside' made'
    rw [made', maximal'.unique maximal fun k => by simp only [perm.mem_iff]]
  · rintro ⟨f, hf, nonempty, beyond⟩
    exact chunksOf_of_beyond hf nonempty beyond

/-- Nested, adjacent and empty fields, out of order, with the gap that they leave; and a field that ends
one byte behind the size. -/
theorem chunksOf_nested :
    (0 : Int) ≤ 8 ∧
      (∃ chunks, MaximalRanges ⟨8, .little⟩ [⟨6, .int ⟨false, 2⟩⟩, ⟨0, .int ⟨false, 4⟩⟩, ⟨1, .bool⟩,
          ⟨5, .tuple [] 0⟩, ⟨4, .bool⟩] 8 chunks ∧
        chunks = [⟨0, 5⟩, ⟨6, 2⟩]) ∧
      chunksOf ⟨8, .little⟩ [⟨0, .bool⟩, ⟨7, .int ⟨false, 2⟩⟩] 8 =
        .error (.arithmetic .indexOutOfRange) := by
  have maximal := @chunksOf_maximal ⟨8, .little⟩ 8 (by decide)
  refine ⟨by decide, ?_, (maximal _).2 (by decide)⟩
  obtain ⟨chunks, ranges, made⟩ := (maximal [⟨6, .int ⟨false, 2⟩⟩, ⟨0, .int ⟨false, 4⟩⟩, ⟨1, .bool⟩,
    ⟨5, .tuple [] 0⟩, ⟨4, .bool⟩]).1 (by decide)
  exact ⟨chunks, ranges, Except.ok.inj ((made _ (.refl _)).symm.trans rfl)⟩

end AbstractMachine
