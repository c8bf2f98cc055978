/-
# AbstractMachine.Proofs.Layout.Ranges — where builders put fields and chunks

Fields are placed one behind the other, each at the next multiple of its alignment (`FieldsPlaced`); so
no two of them share a byte, whatever their sizes. The chunks of a union are runs of covered bytes. They
come in order, and between two of them there is a byte that is in neither (`runs_ordered`).
-/
import AbstractMachine.Proofs.Layout.Alignment
import AbstractMachine.Proofs.Faults
import AbstractMachine.Proofs.Soundness

namespace AbstractMachine

variable {target : Target}

/-! ## Fields -/

/-- Fields of some types, in the order of these, lie between two ends: each of them at a multiple of its
alignment, and no one before the end of another that comes earlier. -/
structure FieldsPlaced (target : Target) (tys : List Ty) (start stop : Int) (fields : List Field) :
    Prop where
  types : fields.map (·.ty) = tys
  aligned : ∀ f ∈ fields, f.ty.naturalAlign target ∣ f.offset
  between : ∀ f ∈ fields, start ≤ f.offset ∧ f.offset + f.ty.byteSize target ≤ stop
  ordered : fields.Pairwise fun f g => f.offset + f.ty.byteSize target ≤ g.offset

namespace FieldsPlaced

variable {tys : List Ty} {start stop stop' : Int} {fields : List Field}

theorem mono (h : FieldsPlaced target tys start stop fields) (le : stop ≤ stop') :
    FieldsPlaced target tys start stop' fields :=
  { h with between := fun f hf => ⟨(h.between f hf).1, (h.between f hf).2.trans le⟩ }

theorem mem_types (h : FieldsPlaced target tys start stop fields) {f : Field} (hf : f ∈ fields) :
    f.ty ∈ tys :=
  h.types ▸ List.mem_map_of_mem hf

theorem fieldsInside (h : FieldsPlaced target tys start stop fields) (nonneg : 0 ≤ start) :
    (Ty.tuple fields stop).FieldsInside target := by
  intro f hf
  obtain ⟨low, high⟩ := h.between f hf
  exact Chunk.inside_iff.2 (.inr ⟨nonneg.trans low, high⟩)

theorem fieldsApart (h : FieldsPlaced target tys start stop fields) :
    (Ty.tuple fields stop).FieldsApart target :=
  h.ordered.imp fun before => Chunk.apart_iff.2 (.inr (.inr (.inl before)))

/-- The alignment of a tuple is the largest one of its fields. -/
theorem naturalAlign_eq (h : FieldsPlaced target tys start stop fields) (size : Int) :
    (Ty.tuple fields size).naturalAlign target = largestAlign (tys.map (Ty.naturalAlign target)) := by
  rw [Ty.naturalAlign_tuple, ← h.types, List.map_map]
  rfl

end FieldsPlaced

/-- To place fields puts them in order. No alignment is zero then, since to round up has not failed. -/
theorem placed_of_placeFields {tys : List Ty} {start stop : Int} {fields : List Field}
    (measured : ∀ t ∈ tys, t.Measured target)
    (h : placeFields target start tys = .ok (fields, stop)) :
    FieldsPlaced target tys start stop fields ∧ start ≤ stop ∧
      ∀ t ∈ tys, 1 ≤ t.naturalAlign target := by
  induction tys generalizing start fields with
  | nil =>
      obtain ⟨rfl, rfl⟩ := Prod.mk.inj (Except.ok.inj h)
      exact ⟨⟨rfl, nofun, nofun, .nil⟩, Int.le_refl _, nofun⟩
  | cons ty tys ih =>
      obtain ⟨⟨align, size⟩, rest⟩ := List.forall_mem_cons.1 measured
      simp only [placeFields, bind_eq_ok_iff, pure, Except.pure, Except.ok.injEq, Prod.mk.injEq] at h
      obtain ⟨first, rounded, ⟨others, last⟩, placed, rfl, rfl⟩ := h
      obtain ⟨one, multiple, low⟩ := roundUp_bounds align rounded
      obtain ⟨placed, below, ones⟩ := ih rest placed
      refine ⟨⟨?_, ?_, ?_, ?_⟩, by omega, List.forall_mem_cons.2 ⟨one, ones⟩⟩
      · rw [List.map_cons, placed.types]
      · exact List.forall_mem_cons.2 ⟨multiple, placed.aligned⟩
      · refine List.forall_mem_cons.2 ⟨⟨low, below⟩, fun f hf => ?_⟩
        obtain ⟨behind, inside⟩ := placed.between f hf
        exact ⟨by omega, inside⟩
      · exact List.pairwise_cons.2 ⟨fun f hf => (placed.between f hf).1, placed.ordered⟩

theorem exists_placeFields {tys : List Ty} (nonzero : ∀ t ∈ tys, t.naturalAlign target ≠ 0)
    (start : Int) : ∃ fields stop, placeFields target start tys = .ok (fields, stop) := by
  induction tys generalizing start with
  | nil => exact ⟨[], start, rfl⟩
  | cons ty tys ih =>
      obtain ⟨here, rest⟩ := List.forall_mem_cons.1 nonzero
      obtain ⟨first, rounded⟩ := exists_roundUp start here
      obtain ⟨fields, stop, placed⟩ := ih rest (first + ty.byteSize target)
      refine ⟨⟨first, ty⟩ :: fields, stop, ?_⟩
      rw [placeFields]
      simp only [bind_eq_ok_iff]
      exact ⟨first, rounded, ⟨fields, stop⟩, placed, rfl⟩

/-! ## Chunks -/

/-- The runs from a position on begin there, or where the run began that is open, and end at the last
flag. -/
theorem runs_between {o : Option Int} {i : Int} {flags : List Bool} (opened : ∀ s ∈ o, s < i) :
    ∀ c ∈ runs o i flags, o.getD i ≤ c.start ∧ 0 < c.size ∧ c.start + c.size ≤ i + flags.length := by
  fun_induction runs o i flags with
  | case1 i => nofun
  | case2 s i =>
      have before := opened s rfl
      simp only [List.mem_singleton, forall_eq, Option.getD_some, List.length_nil]
      omega
  | case3 i flags ih =>
      intro c hc
      have := ih nofun c hc
      simp only [Option.getD_none, List.length_cons] at this ⊢
      omega
  | case4 i flags ih =>
      intro c hc
      have := ih (by rintro s ⟨⟩; omega) c hc
      simp only [Option.getD_none, Option.getD_some, List.length_cons] at this ⊢
      omega
  | case5 s i flags ih =>
      intro c hc
      have before := opened s rfl
      have := ih (by rintro s ⟨⟩; omega) c hc
      simp only [Option.getD_some, List.length_cons] at this ⊢
      omega
  | case6 s i flags ih =>
      have before := opened s rfl
      refine List.forall_mem_cons.2 ⟨?_, fun c hc => ?_⟩
      · simp only [Option.getD_some, List.length_cons]
        omega
      · have := ih nofun c hc
        simp only [Option.getD_none, Option.getD_some, List.length_cons] at this ⊢
        omega

/-- A run does not touch the one before it. -/
theorem runs_ordered {o : Option Int} {i : Int} {flags : List Bool} :
    (runs o i flags).Pairwise fun c d => c.start + c.size < d.start := by
  fun_induction runs o i flags with
  | case1 i => exact .nil
  | case2 s i => exact List.pairwise_singleton _ _
  | case3 i flags ih => exact ih
  | case4 i flags ih => exact ih
  | case5 s i flags ih => exact ih
  | case6 s i flags ih =>
      refine List.pairwise_cons.2 ⟨fun c hc => ?_, ih⟩
      have := runs_between (by simp) c hc
      simp only [Option.getD_none] at this ⊢
      omega

/-- The runs cover the positions of the flags, and what lies behind the start of an open run. -/
theorem mem_runs_iff {o : Option Int} {i k : Int} {flags : List Bool} (opened : ∀ s ∈ o, s < i) :
    (∃ c ∈ runs o i flags, k ∈ c) ↔
      (∃ s ∈ o, s ≤ k ∧ k < i) ∨ ∃ j : Nat, flags[j]? = some true ∧ k = i + j := by
  -- Behind the first flag the others come one position later.
  have next (i : Int) (flag : Bool) (flags : List Bool) :
      (∃ j : Nat, (flag :: flags)[j]? = some true ∧ k = i + j) ↔
        flag = true ∧ k = i ∨ ∃ j : Nat, flags[j]? = some true ∧ k = i + 1 + j := by
    rw [← Nat.or_exists_add_one]
    simp [Int.add_assoc, Int.add_comm 1]
  fun_induction runs o i flags with
  | case1 i => simp
  | case2 s i =>
      simp only [List.mem_singleton, exists_eq_left, Chunk.mem_iff, Option.mem_some_iff, exists_eq_left',
        List.getElem?_nil, reduceCtorEq, false_and, exists_false, or_false]
      omega
  | case3 i flags ih => simpa [next] using ih nofun
  | case4 i flags ih =>
      refine (ih (by rintro s ⟨⟩; omega)).trans ?_
      rw [next, ← or_assoc]
      refine or_congr_left ?_
      simp only [Option.mem_some_iff, exists_eq_left', Option.not_mem_none, false_and, exists_false,
        false_or, true_and]
      omega
  | case5 s i flags ih =>
      have before := opened s rfl
      refine (ih (by rintro s ⟨⟩; omega)).trans ?_
      rw [next, ← or_assoc]
      refine or_congr_left ?_
      simp only [Option.mem_some_iff, exists_eq_left', true_and]
      omega
  | case6 s i flags ih =>
      simp only [List.mem_cons, or_and_right, exists_or, exists_eq_left, next]
      refine or_congr ?_ ((ih nofun).trans ?_)
      · simp only [Chunk.mem_iff, Option.mem_some_iff, exists_eq_left']
        omega
      · simp only [Option.not_mem_none, false_and, exists_false, false_or, reduceCtorEq]

/-- The chunks of fields come in order inside the size that they were asked for. -/
theorem chunks_of_chunksOf {fields : List Field} {size : Int} {chunks : List Chunk}
    (h : chunksOf target fields size = .ok chunks) :
    (∀ c ∈ chunks, 0 ≤ c.start ∧ 0 < c.size ∧ c.start + c.size ≤ size.toNat) ∧
      chunks.Pairwise fun c d => c.start + c.size < d.start := by
  simp only [chunksOf, bind_eq_ok_iff, pure, Except.pure, Except.ok.injEq] at h
  obtain ⟨_, -, rfl⟩ := h
  refine ⟨fun c hc => ?_, runs_ordered⟩
  have between := runs_between (by simp) c hc
  rw [List.length_map, List.length_range, Option.getD_none] at between
  omega

/-- The chunks of fields that lie inside cover what the fields cover. -/
theorem mem_chunks_iff {fields : List Field} {size k : Int} {chunks : List Chunk}
    (h : chunksOf target fields size = .ok chunks)
    (inside : ∀ f ∈ fields, 0 ≤ f.offset ∧ f.offset + f.ty.byteSize target ≤ size) :
    (∃ c ∈ chunks, k ∈ c) ↔ ∃ f ∈ fields, k ∈ f.extent target := by
  simp only [chunksOf, bind_eq_ok_iff, pure, Except.pure, Except.ok.injEq] at h
  obtain ⟨_, -, rfl⟩ := h
  rw [mem_runs_iff (by simp)]
  simp only [Option.not_mem_none, false_and, exists_false, false_or, Int.zero_add,
    List.getElem?_map, Option.map_eq_some_iff, List.any_eq_true, coversByte, Bool.or_eq_true,
    Bool.and_eq_true, decide_eq_true_eq, Chunk.mem_iff, Field.extent]
  constructor
  · rintro ⟨j, ⟨i, at_, f, hf, covers⟩, rfl⟩
    obtain ⟨bound, rfl⟩ := List.getElem?_eq_some_iff.1 at_
    rw [List.length_range] at bound
    rw [List.getElem_range] at covers
    have := inside f hf
    exact ⟨f, hf, by omega⟩
  · rintro ⟨f, hf, low, high⟩
    have := inside f hf
    refine ⟨k.toNat, ⟨k.toNat, List.getElem?_range (by omega), f, hf, ?_⟩, by omega⟩
    omega

theorem exists_chunksOf {fields : List Field} {size : Int}
    (fits : ∀ f ∈ fields, 0 ≤ f.offset ∧ f.offset + f.ty.byteSize target ≤ size) :
    ∃ chunks, chunksOf target fields size = .ok chunks := by
  have all : (fields.all fun f => inBuffer size.toNat f.offset (f.ty.byteSize target)) = true := by
    rw [List.all_eq_true]
    intro f hf
    have := fits f hf
    simp only [inBuffer, Bool.or_eq_true, Bool.and_eq_true, decide_eq_true_eq]
    omega
  simp only [chunksOf, all, require]
  exact ⟨_, rfl⟩

end AbstractMachine
