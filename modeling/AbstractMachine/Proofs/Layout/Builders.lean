/-
# AbstractMachine.Proofs.Layout.Builders — the types that builders make

Nothing forces a layout to make sense, but one that was put together by builders does. Scalars, and what
is made of such types by tuples, arrays, unions and tagged enums, is sound; the size of such a type is a
multiple of its alignment, so that the elements of an array are aligned as well as the first one is
(`Ty.proper_of_built`). If all sizes of scalars are powers of two, then so are all alignments, and every
part of a type that is laid out at its alignment is laid out at no less than its own
(`Ty.partsAligned_of_built`).

Alignments of zero are met where pointers have no bytes. Then a builder fails that has to round up to a
multiple of zero; what is built without that is sound all the same.
-/
import AbstractMachine.Proofs.Layout.Tags

namespace AbstractMachine

variable {target : Target}

namespace Ty

/-! ## Built types -/

/-- A type is put together by builders, from integers and with tags whose sizes are of some kinds. The
number of the last variant of an enum fits its tag. -/
inductive Built (target : Target) (width tagWidth : Int → Prop) : Ty → Prop
  | bool : Built target width tagWidth .bool
  | int {t : IntTy} (sized : width t.size) : Built target width tagWidth (.int t)
  | ptr (t : PtrTy) : Built target width tagWidth (.ptr t)
  | tuple {tys : List Ty} {ty : Ty} (parts : ∀ t ∈ tys, Built target width tagWidth t)
      (made : tupleOf target tys = .ok ty) : Built target width tagWidth ty
  | array {elem : Ty} {count : Int} (part : Built target width tagWidth elem) (counted : 0 ≤ count) :
      Built target width tagWidth (.array elem count)
  | union {tys : List Ty} {u : UnionTy} (parts : ∀ t ∈ tys, Built target width tagWidth t)
      (made : unionOf target tys = .ok u) : Built target width tagWidth (.union u)
  | tagged {payloads : List (List Ty)} {tag : IntTy} {e : EnumTy}
      (parts : ∀ tys ∈ payloads, ∀ t ∈ tys, Built target width tagWidth t) (sized : tagWidth tag.size)
      (last : payloads ≠ [] → tag.canRepresent (payloads.length - 1) = .ok true)
      (made : EnumTy.tagged target payloads tag = .ok e) : Built target width tagWidth (.enum e)

theorem Built.mono {width tagWidth width' tagWidth' : Int → Prop} (sub : ∀ n, width n → width' n)
    (sub' : ∀ n, tagWidth n → tagWidth' n) {ty : Ty} (h : ty.Built target width tagWidth) :
    ty.Built target width' tagWidth' := by
  induction h with
  | bool => exact .bool
  | int sized => exact .int (sub _ sized)
  | ptr t => exact .ptr t
  | tuple _ made ih => exact .tuple ih made
  | array _ counted ih => exact .array ih counted
  | union _ made ih => exact .union ih made
  | tagged _ sized last made ih => exact .tagged ih (sub' _ sized) last made

theorem Built.of_powerOfTwo {ty : Ty} (h : ty.Built target PowerOfTwo PowerOfTwo) :
    ty.Built target (1 ≤ ·) (0 ≤ ·) :=
  h.mono (fun _ power => power.one_le) fun _ power => Int.le_of_lt power.one_le

/-! ## What each builder makes -/

variable {tys : List Ty} {ty : Ty} {u : UnionTy} {payloads : List (List Ty)} {tag : IntTy} {e : EnumTy}

/-- A tuple has its fields in order, and its size is a multiple of its alignment. -/
theorem placed_of_tupleOf (measured : ∀ t ∈ tys, t.Measured target) (h : tupleOf target tys = .ok ty) :
    ∃ fields size, ty = .tuple fields size ∧ 0 ≤ size ∧ FieldsPlaced target tys 0 size fields ∧
      ty.naturalAlign target = largestAlign (tys.map (naturalAlign target)) ∧
      ty.naturalAlign target ∣ size := by
  simp only [tupleOf, bind_eq_ok_iff, pure, Except.pure, Except.ok.injEq] at h
  obtain ⟨⟨fields, stop⟩, placed, size, rounded, rfl⟩ := h
  obtain ⟨between, nonneg, ones⟩ := placed_of_placeFields measured placed
  rw [largestAlign_one_cons (List.forall_mem_map.2 ones)] at rounded
  obtain ⟨-, multiple, ends⟩ := roundUp_bounds (largestAlign_nonneg measured) rounded
  have same := between.naturalAlign_eq size
  exact ⟨fields, size, rfl, nonneg.trans ends, between.mono ends, same, same ▸ multiple⟩

theorem exists_tupleOf (positive : ∀ t ∈ tys, 1 ≤ t.naturalAlign target) :
    ∃ ty, tupleOf target tys = .ok ty := by
  have nonzero : ∀ t ∈ tys, t.naturalAlign target ≠ 0 := fun t ht => ne_of_gt (positive t ht)
  obtain ⟨fields, stop, placed⟩ := exists_placeFields nonzero 0
  have one : 1 ≤ largestAlign (1 :: tys.map (naturalAlign target)) :=
    le_largestAlign List.mem_cons_self
  obtain ⟨size, rounded⟩ := exists_roundUp stop (ne_of_gt one)
  rw [tupleOf]
  simp only [bind_eq_ok_iff]
  exact ⟨_, (fields, stop), placed, size, rounded, rfl⟩

/-- The size of the widest of some types. -/
theorem le_widest {t : Ty} (ht : t ∈ tys) :
    t.byteSize target ≤ ((tys.map (byteSize target)).max?).getD 0 := by
  have mem := List.mem_map_of_mem (f := byteSize target) ht
  cases widest : (tys.map (byteSize target)).max? with
  | none =>
      rw [List.max?_eq_none_iff.1 widest] at mem
      cases mem
  | some n => exact (List.max?_eq_some_iff.1 widest).2 _ mem

theorem widest_nonneg (measured : ∀ t ∈ tys, t.Measured target) :
    0 ≤ ((tys.map (byteSize target)).max?).getD 0 := by
  cases widest : (tys.map (byteSize target)).max? with
  | none => exact Int.le_refl 0
  | some n =>
      obtain ⟨t, ht, rfl⟩ := List.mem_map.1 (List.max?_mem widest)
      exact (measured t ht).2

end Ty

/-- A union has all its fields at its start, is as large as each of them, and keeps what they cover. -/
structure UnionTy.Covering (target : Target) (tys : List Ty) (u : UnionTy) : Prop where
  fields : u.fields = tys.map fun ty => ⟨0, ty⟩
  room : ∀ t ∈ tys, t.byteSize target ≤ u.size
  nonneg : 0 ≤ u.size
  chunks : chunksOf target u.fields u.size = .ok u.chunks
  align : (Ty.union u).naturalAlign target = largestAlign (tys.map (Ty.naturalAlign target))
  multiple : (Ty.union u).naturalAlign target ∣ u.size

namespace Ty

variable {tys : List Ty} {ty : Ty} {u : UnionTy} {payloads : List (List Ty)} {tag : IntTy} {e : EnumTy}

theorem covering_of_unionOf (measured : ∀ t ∈ tys, t.Measured target)
    (h : unionOf target tys = .ok u) : u.Covering target tys := by
  simp only [unionOf, bind_eq_ok_iff, pure, Except.pure, Except.ok.injEq] at h
  obtain ⟨size, rounded, chunks, covered, rfl⟩ := h
  obtain ⟨-, multiple, ends⟩ := roundUp_bounds (largestAlign_nonneg measured) rounded
  have same : (Ty.union ⟨tys.map fun ty => ⟨0, ty⟩, chunks, size⟩).naturalAlign target =
      largestAlign (tys.map (naturalAlign target)) := by
    rw [naturalAlign_union, List.map_map]
    rfl
  exact ⟨rfl, fun t ht => (le_widest ht).trans ends, (widest_nonneg measured).trans ends, covered, same,
    same ▸ multiple⟩

theorem exists_unionOf (positive : ∀ t ∈ tys, 1 ≤ t.naturalAlign target) :
    ∃ u, unionOf target tys = .ok u := by
  have one : 1 ≤ largestAlign (tys.map (naturalAlign target)) :=
    largestAlign_of_forall (P := (1 ≤ ·)) (Int.le_refl 1) (List.forall_mem_map.2 positive)
  obtain ⟨size, rounded⟩ :=
    exists_roundUp (((tys.map (byteSize target)).max?).getD 0) (ne_of_gt one)
  obtain ⟨-, -, ends⟩ := roundUp_bounds (by omega) rounded
  have fits : ∀ f ∈ tys.map (Field.mk 0), 0 ≤ f.offset ∧ f.offset + f.ty.byteSize target ≤ size := by
    intro f hf
    obtain ⟨t, ht, rfl⟩ := List.mem_map.1 hf
    have below : t.byteSize target ≤ size := (le_widest ht).trans ends
    exact ⟨Int.le_refl 0, by rwa [Int.zero_add]⟩
  obtain ⟨chunks, covered⟩ := exists_chunksOf fits
  rw [unionOf]
  simp only [bind_eq_ok_iff]
  exact ⟨_, size, rounded, chunks, covered, rfl⟩

/-- A union keeps its bytes if the chunks are those of its fields. -/
theorem sound_of_chunksOf (nonneg : 0 ≤ u.size)
    (h : chunksOf target u.fields u.size = .ok u.chunks) : (Ty.union u).Sound target := by
  obtain ⟨between, ordered⟩ := chunks_of_chunksOf h
  have inside : (Ty.union u).ChunksInside := by
    intro c hc
    have := between c hc
    exact Chunk.inside_iff.2 (.inr ⟨by omega, by omega⟩)
  have apart : (Ty.union u).ChunksApart :=
    ordered.imp fun before => Chunk.apart_iff.2 (.inr (.inr (.inl (Int.le_of_lt before))))
  exact ⟨⟨nonneg, trivial, inside, trivial, trivial⟩, trivial, apart, trivial, trivial, trivial⟩

/-- What holds of one and of the alignments of the tag and all fields holds of that of the enum. -/
theorem naturalAlign_of_forall (h : e.TaggedBy target payloads tag) {P : Int → Prop} (one : P 1)
    (sized : P tag.size) (parts : ∀ tys ∈ payloads, ∀ t ∈ tys, P (t.naturalAlign target)) :
    P ((Ty.enum e).naturalAlign target) := by
  rw [naturalAlign_enum]
  refine largestAlign_of_forall one fun n hn => ?_
  obtain ⟨v, hv, hn⟩ := List.mem_flatMap.1 hn
  obtain ⟨i, tys, fields, at_, rfl, placed⟩ := h.exists_of_mem hv
  rcases List.mem_cons.1 hn with rfl | hn
  · rw [placed.naturalAlign_eq]
    exact largestAlign_of_forall one
      (List.forall_mem_map.2 (parts tys (List.mem_of_getElem? at_)))
  · obtain rfl := List.mem_singleton.1 hn
    exact sized

/-- The alignment of a tagged enum is the one that the builder rounds up to, unless there are no
variants. -/
theorem naturalAlign_of_taggedBy (h : e.TaggedBy target payloads tag)
    (ones : ∀ tys ∈ payloads, ∀ t ∈ tys, 1 ≤ t.naturalAlign target)
    (one : 1 ≤ taggedAlign target payloads tag) (some : payloads ≠ []) :
    (Ty.enum e).naturalAlign target = taggedAlign target payloads tag := by
  have payload {tys : List Ty} (htys : tys ∈ payloads) :
      largestAlign (tys.map (naturalAlign target)) ≤ (Ty.enum e).naturalAlign target ∧
        tag.size ≤ (Ty.enum e).naturalAlign target := by
    obtain ⟨i, at_⟩ := List.mem_iff_getElem?.1 htys
    obtain ⟨fields, hv, placed⟩ := h.exists_variant at_
    obtain ⟨payload, tags⟩ := le_naturalAlign_enum target hv
    exact ⟨placed.naturalAlign_eq e.size ▸ payload, tags _ List.mem_cons_self⟩
  apply Int.le_antisymm
  · refine naturalAlign_of_forall h (P := (· ≤ _)) one le_taggedAlign ?_
    intro tys htys t ht
    exact le_largestAlign
      (List.mem_cons_of_mem _ (List.mem_map_of_mem (List.mem_flatten.2 ⟨tys, htys, ht⟩)))
  · obtain ⟨first, hfirst⟩ := List.exists_mem_of_ne_nil _ some
    obtain ⟨below, tagged⟩ := payload hfirst
    have positive : 1 ≤ largestAlign (first.map (naturalAlign target)) :=
      largestAlign_of_forall (P := (1 ≤ ·)) (Int.le_refl 1)
        (List.forall_mem_map.2 (ones first hfirst))
    refine largestAlign_of_forall (P := (· ≤ _)) (positive.trans below)
      (List.forall_mem_cons.2 ⟨tagged, fun n hn => ?_⟩)
    obtain ⟨t, ht, rfl⟩ := List.mem_map.1 hn
    obtain ⟨tys, htys, ht⟩ := List.mem_flatten.1 ht
    exact (le_largestAlign (List.mem_map_of_mem ht)).trans (payload htys).1

/-- The size of a tagged enum is a multiple of its alignment. -/
theorem naturalAlign_dvd_of_tagged
    (measured : ∀ tys ∈ payloads, ∀ t ∈ tys, t.Measured target) (sized : 0 ≤ tag.size)
    (made : EnumTy.tagged target payloads tag = .ok e) : (Ty.enum e).naturalAlign target ∣ e.size := by
  obtain ⟨tagged, ones, one, multiple⟩ := taggedBy_of_tagged measured sized made
  by_cases none : payloads = []
  · have empty : e.variants = [] := List.length_eq_zero_iff.1 (by rw [tagged.length, none]; rfl)
    rw [naturalAlign_enum, empty]
    exact one_dvd _
  · rw [naturalAlign_of_taggedBy tagged ones one none]
    exact multiple

/-! ## Built types are sound -/

/-- What there is to say of a type that was put together by builders. -/
structure Proper (target : Target) (ty : Ty) : Prop where
  sound : ty.Every (Sound target)
  measured : ty.Measured target
  multiple : ty.naturalAlign target ∣ ty.byteSize target

theorem proper_of_built (width : 0 ≤ target.ptrSize) (h : ty.Built target (1 ≤ ·) (0 ≤ ·)) :
    ty.Proper target := by
  induction h with
  | bool => exact ⟨.intro sound_bool nofun, ⟨Int.one_nonneg, Int.one_nonneg⟩, one_dvd _⟩
  | @int t sized =>
      have nonneg : 0 ≤ t.size := by omega
      exact ⟨.intro sound_int nofun, ⟨nonneg, nonneg⟩, dvd_refl _⟩
  | ptr t => exact ⟨.intro sound_ptr nofun, ⟨width, width⟩, dvd_refl _⟩
  | tuple _ made ih =>
      obtain ⟨fields, size, rfl, nonneg, placed, align, multiple⟩ :=
        placed_of_tupleOf (fun t ht => (ih t ht).measured) made
      refine ⟨.intro (sound_tuple_iff.2 ⟨nonneg, placed.fieldsInside (Int.le_refl 0),
        placed.fieldsApart⟩) fun t ht => ?_, ⟨?_, nonneg⟩, multiple⟩
      · obtain ⟨f, hf, rfl⟩ := List.mem_map.1 ht
        exact (ih f.ty (placed.mem_types hf)).sound
      · rw [align]
        exact largestAlign_nonneg fun t ht => (ih t ht).measured
  | @array elem count _ counted ih =>
      refine ⟨.intro sound_array fun t ht => ?_, ⟨ih.measured.1, ?_⟩, ?_⟩
      · obtain rfl := List.mem_singleton.1 ht
        exact ih.sound
      · exact Int.mul_nonneg ih.measured.2 counted
      · exact ih.multiple.trans (Int.dvd_mul_right _ _)
  | union _ made ih =>
      have covering := covering_of_unionOf (fun t ht => (ih t ht).measured) made
      have sound := sound_of_chunksOf covering.nonneg covering.chunks
      refine ⟨.intro sound nofun, ⟨?_, covering.nonneg⟩, covering.multiple⟩
      rw [covering.align]
      exact largestAlign_nonneg fun t ht => (ih t ht).measured
  | @tagged payloads tag e _ sized last made ih =>
      have measured tys htys t ht := (ih tys htys t ht).measured
      obtain ⟨tagged, -⟩ := taggedBy_of_tagged measured sized made
      refine ⟨tagged.every_sound sized last fun tys htys t ht => (ih tys htys t ht).sound, ⟨?_, ?_⟩,
        naturalAlign_dvd_of_tagged measured sized made⟩
      · exact naturalAlign_of_forall tagged (P := (0 ≤ ·)) Int.one_nonneg sized
          fun tys htys t ht => (measured tys htys t ht).1
      · exact sized.trans tagged.room

/-- What holds of one and of the sizes of all scalars holds of the alignments of what is built. -/
theorem naturalAlign_of_built {width tagWidth P : Int → Prop} (nonneg : 0 ≤ target.ptrSize)
    (ints : ∀ n, width n → 1 ≤ n ∧ P n) (tags : ∀ n, tagWidth n → 0 ≤ n ∧ P n) (one : P 1)
    (ptr : P target.ptrSize) (h : ty.Built target width tagWidth) : P (ty.naturalAlign target) := by
  have measured {t : Ty} (h : t.Built target width tagWidth) : t.Measured target :=
    (proper_of_built nonneg (h.mono (fun n hn => (ints n hn).1) fun n hn => (tags n hn).1)).measured
  induction h with
  | bool => exact one
  | int sized => exact (ints _ sized).2
  | ptr t => exact ptr
  | tuple parts made ih =>
      obtain ⟨fields, size, rfl, -, -, align, -⟩ :=
        placed_of_tupleOf (fun t ht => measured (parts t ht)) made
      rw [align]
      exact largestAlign_of_forall one (List.forall_mem_map.2 ih)
  | array _ _ ih => exact ih
  | union parts made ih =>
      rw [(covering_of_unionOf (fun t ht => measured (parts t ht)) made).align]
      exact largestAlign_of_forall one (List.forall_mem_map.2 ih)
  | tagged parts sized _ made ih =>
      obtain ⟨tagged, -⟩ := taggedBy_of_tagged
        (fun tys htys t ht => measured (parts tys htys t ht)) (tags _ sized).1 made
      exact naturalAlign_of_forall tagged one (tags _ sized).2 ih

/-! ## Alignments of parts -/

/-- Fields stand at no less than their alignments in what has an alignment. -/
def FieldsAligned (target : Target) (fields : List Field) (align : Int) : Prop :=
  ∀ f ∈ fields, f.ty.naturalAlign target ≤ restrictAlign align f.offset

/-- Where a type is laid out at its alignment, what is projected to is so too: the fields of a tuple or
union, the elements of an array whatever their number, and the payloads of an enum with their fields;
and the tag. -/
def PartsAligned (target : Target) : Ty → Prop
  | .tuple fields size =>
      FieldsAligned target fields ((Ty.tuple fields size).naturalAlign target)
  | .array elem count => elem.naturalAlign target ≤
      restrictAlign ((Ty.array elem count).naturalAlign target) (elem.byteSize target)
  | .union u => FieldsAligned target u.fields ((Ty.union u).naturalAlign target)
  | .enum e => ∀ v ∈ e.variants, v.ty.naturalAlign target ≤ (Ty.enum e).naturalAlign target ∧
      (∃ fields, v.ty = .tuple fields e.size ∧
        FieldsAligned target fields (v.ty.naturalAlign target) ∧
        FieldsAligned target fields ((Ty.enum e).naturalAlign target)) ∧
      ∀ w ∈ v.tagger, w.ty.size ≤ restrictAlign ((Ty.enum e).naturalAlign target) w.offset
  | _ => True

/-- Fields that are placed are aligned, where nothing is less aligned than they are. -/
theorem fieldsAligned_of_placed {start stop : Int} {fields : List Field} {align : Int}
    (placed : FieldsPlaced target tys start stop fields)
    (power : ∀ t ∈ tys, PowerOfTwo (t.naturalAlign target))
    (le : ∀ t ∈ tys, t.naturalAlign target ≤ align) : FieldsAligned target fields align :=
  fun f hf => le_restrictAlign (power _ (placed.mem_types hf)) (le _ (placed.mem_types hf))
    (placed.aligned f hf)

/-- If scalars have powers of two for sizes, then so are alignments. -/
theorem powerOfTwo_naturalAlign (width : PowerOfTwo target.ptrSize)
    (h : ty.Built target PowerOfTwo PowerOfTwo) : PowerOfTwo (ty.naturalAlign target) :=
  naturalAlign_of_built (Int.le_of_lt width.one_le) (fun _ power => ⟨power.one_le, power⟩)
    (fun _ power => ⟨Int.le_of_lt power.one_le, power⟩) powerOfTwo_one width h

/-- All parts of a type are aligned then. -/
theorem partsAligned_of_built (width : PowerOfTwo target.ptrSize)
    (h : ty.Built target PowerOfTwo PowerOfTwo) : ty.PartsAligned target := by
  have power {t : Ty} (h : t.Built target PowerOfTwo PowerOfTwo) := powerOfTwo_naturalAlign width h
  have proper {t : Ty} (h : t.Built target PowerOfTwo PowerOfTwo) : t.Proper target :=
    proper_of_built (Int.le_of_lt width.one_le) h.of_powerOfTwo
  cases h with
  | bool | int _ | ptr _ => trivial
  | tuple parts made =>
      obtain ⟨fields, size, rfl, -, placed, align, -⟩ :=
        placed_of_tupleOf (fun t ht => (proper (parts t ht)).measured) made
      refine fieldsAligned_of_placed placed (fun t ht => power (parts t ht)) fun t ht => ?_
      rw [align]
      exact le_largestAlign (List.mem_map_of_mem ht)
  | array part _ => exact le_restrictAlign (power part) (Int.le_refl _) (proper part).multiple
  | union parts made =>
      have covering := covering_of_unionOf (fun t ht => (proper (parts t ht)).measured) made
      intro f hf
      rw [covering.fields] at hf
      obtain ⟨t, ht, rfl⟩ := List.mem_map.1 hf
      refine le_restrictAlign (power (parts t ht)) ?_ (Int.dvd_zero _)
      rw [covering.align]
      exact le_largestAlign (List.mem_map_of_mem ht)
  | @tagged payloads tag e parts sized _ made =>
      obtain ⟨tagged, -⟩ := taggedBy_of_tagged
        (fun tys htys t ht => (proper (parts tys htys t ht)).measured) (Int.le_of_lt sized.one_le) made
      intro v hv
      obtain ⟨payload, tags⟩ := le_naturalAlign_enum target hv
      obtain ⟨i, tys, fields, at_, rfl, placed⟩ := tagged.exists_of_mem hv
      have power t ht := power (parts tys (List.mem_of_getElem? at_) t ht)
      have own : ∀ t ∈ tys, t.naturalAlign target ≤ (Ty.tuple fields e.size).naturalAlign target := by
        intro t ht
        rw [placed.naturalAlign_eq]
        exact le_largestAlign (List.mem_map_of_mem ht)
      refine ⟨payload, ⟨fields, rfl, fieldsAligned_of_placed placed power own,
        fieldsAligned_of_placed placed power fun t ht => (own t ht).trans payload⟩, fun w hw => ?_⟩
      obtain rfl := List.mem_singleton.1 hw
      exact le_restrictAlign sized (tags _ List.mem_cons_self) (Int.dvd_zero _)

/-! ## What the builders guarantee -/

/-- The builders only make sound types: those that are put together by them from scalars, on a target
whose pointers have no negative size, have all their parts in order, apart from each other and inside;
and if scalars have powers of two for sizes, all parts are aligned. -/
theorem layout_of_built (nonneg : 0 ≤ target.ptrSize) :
    (∀ ty : Ty, ty.Built target (1 ≤ ·) (0 ≤ ·) → ty.Every (Sound target) ∧
      ty.naturalAlign target ∣ ty.byteSize target) ∧
    (∀ tys ty, (∀ t ∈ tys, t.Built target (1 ≤ ·) (0 ≤ ·)) → tupleOf target tys = .ok ty →
      ∃ fields size, ty = .tuple fields size ∧ FieldsPlaced target tys 0 size fields) ∧
    (∀ payloads tag e, (∀ tys ∈ payloads, ∀ t ∈ tys, t.Built target (1 ≤ ·) (0 ≤ ·)) →
      0 ≤ tag.size → EnumTy.tagged target payloads tag = .ok e →
      e.TaggedBy target payloads tag ∧
      ∀ data : List AbsByte, (data.length : Int) = e.size → ∀ d,
        e.discriminator.decode target data = some d ↔ (0 ≤ d ∧ d < payloads.length) ∧
          ∃ bytes, AbsByte.allData? (data.take tag.size.toNat) = some bytes ∧
            target.endian.decode bytes tag.signed = d) ∧
    (1 ≤ target.ptrSize →
      (∀ tys, (∀ t ∈ tys, t.Built target (1 ≤ ·) (1 ≤ ·)) →
        (∃ ty, tupleOf target tys = .ok ty) ∧ ∃ u, unionOf target tys = .ok u) ∧
      ∀ payloads (tag : IntTy), (∀ tys ∈ payloads, ∀ t ∈ tys, t.Built target (1 ≤ ·) (1 ≤ ·)) →
        1 ≤ tag.size → ∃ e, EnumTy.tagged target payloads tag = .ok e) ∧
    (PowerOfTwo target.ptrSize → ∀ ty : Ty, ty.Built target PowerOfTwo PowerOfTwo →
      PowerOfTwo (ty.naturalAlign target) ∧ ty.PartsAligned target) := by
  have proper {t : Ty} (h : t.Built target (1 ≤ ·) (0 ≤ ·)) := proper_of_built nonneg h
  refine ⟨fun ty h => ⟨(proper h).sound, (proper h).multiple⟩, ?_, ?_, ?_,
    fun width ty h => ⟨powerOfTwo_naturalAlign width h, partsAligned_of_built width h⟩⟩
  · intro tys ty parts made
    obtain ⟨fields, size, same, -, placed, -, -⟩ :=
      placed_of_tupleOf (fun t ht => (proper (parts t ht)).measured) made
    exact ⟨fields, size, same, placed⟩
  · intro payloads tag e parts sized made
    obtain ⟨tagged, -⟩ := taggedBy_of_tagged
      (fun tys htys t ht => (proper (parts tys htys t ht)).measured) sized made
    refine ⟨tagged, fun data length d => ?_⟩
    have room := tagged.room
    have front : Slice.read data 0 (0 + tag.size) = data.take tag.size.toNat := by
      rw [Slice.read_eq data (Int.le_refl 0) sized]
      rfl
    have number : ((data.take tag.size.toNat).length : Int) = tag.size := by
      rw [List.length_take]
      omega
    rw [tagged.discriminator, decode_tagDiscriminator_iff, front, IntTy.decode_eq_some_iff, and_comm]
    simp only [number, true_and]
  · intro width
    have one {t : Ty} (h : t.Built target (1 ≤ ·) (1 ≤ ·)) : 1 ≤ t.naturalAlign target :=
      naturalAlign_of_built (P := (1 ≤ ·)) nonneg (fun _ hn => ⟨hn, hn⟩)
        (fun _ hn => ⟨Int.le_of_lt hn, hn⟩) (Int.le_refl 1) width h
    refine ⟨fun tys parts => ?_, fun payloads tag parts sized => ?_⟩
    · exact ⟨exists_tupleOf fun t ht => one (parts t ht), exists_unionOf fun t ht => one (parts t ht)⟩
    · exact exists_tagged (fun tys htys t ht => ne_of_gt (one (parts tys htys t ht))) sized

/-- A byte and a word, or nothing. -/
def byteAndWord : List (List Ty) :=
  [[.int ⟨false, 1⟩, .int ⟨false, 4⟩], []]

/-- Behind a tag of one byte the word begins at the fifth byte. Only the numbers zero and one are found
in the tag. -/
theorem layout_byteAndWord :
    ∃ e, EnumTy.tagged .standard byteAndWord ⟨false, 1⟩ = .ok e ∧
      e.variants.head? = some ⟨.tuple [⟨1, .int ⟨false, 1⟩⟩, ⟨4, .int ⟨false, 4⟩⟩] 8,
        [⟨0, ⟨false, 1⟩, 0⟩]⟩ ∧
      (Ty.enum e).Every (Sound .standard) ∧ (Ty.enum e).PartsAligned .standard ∧
      e.discriminator.decode .standard (.init 1 none :: List.replicate 7 .uninit) = some 1 ∧
      ∀ d, e.discriminator.decode .standard (.init 2 none :: List.replicate 7 .uninit) ≠ some d := by
  obtain ⟨sound, -, tagged, -, aligned⟩ := layout_of_built (show 0 ≤ Target.standard.ptrSize by decide)
  have one : PowerOfTwo 1 := powerOfTwo_one
  have four : PowerOfTwo 4 := ⟨2, rfl⟩
  have parts : ∀ tys ∈ byteAndWord, ∀ t ∈ tys, t.Built .standard PowerOfTwo PowerOfTwo :=
    List.forall_mem_cons.2 ⟨List.forall_mem_cons.2 ⟨.int one, List.forall_mem_singleton.2 (.int four)⟩,
      List.forall_mem_singleton.2 nofun⟩
  have last : byteAndWord ≠ [] → IntTy.canRepresent ⟨false, 1⟩ (byteAndWord.length - 1) = .ok true :=
    fun _ => rfl
  have built := Built.tagged parts one last rfl
  have discriminates := (tagged byteAndWord ⟨false, 1⟩ _
    (fun tys htys t ht => (parts tys htys t ht).of_powerOfTwo) (by decide) rfl).2
  refine ⟨_, rfl, rfl, (sound _ built.of_powerOfTwo).1, (aligned ⟨3, rfl⟩ _ built).2, ?_, fun d found => ?_⟩
  · exact (discriminates _ rfl 1).2 ⟨by decide, [1], rfl, rfl⟩
  · obtain ⟨⟨-, below⟩, _, ⟨⟩, rfl⟩ := (discriminates _ rfl d).1 found
    exact absurd below (by decide)

/-- Pointers of fewer than no bytes put what is behind them out of the type. -/
theorem tupleOf_of_negative_width :
    (∀ t ∈ [Ty.ptr .raw, .bool], t.Built ⟨-1, .little⟩ (1 ≤ ·) (1 ≤ ·)) ∧
      tupleOf ⟨-1, .little⟩ [.ptr .raw, .bool] = .ok (.tuple [⟨0, .ptr .raw⟩, ⟨-1, .bool⟩] 0) ∧
      ¬ (Ty.tuple [⟨0, .ptr .raw⟩, ⟨-1, .bool⟩] 0).FieldsInside ⟨-1, .little⟩ := by
  refine ⟨List.forall_mem_cons.2 ⟨.ptr .raw, List.forall_mem_singleton.2 .bool⟩, rfl, fun inside => ?_⟩
  have behind := inside ⟨-1, .bool⟩ (List.mem_cons_of_mem _ List.mem_cons_self)
  revert behind
  decide

end Ty

end AbstractMachine
