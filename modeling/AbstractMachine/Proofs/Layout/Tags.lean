/-
# AbstractMachine.Proofs.Layout.Tags — enums with a tag in front

A tagged enum begins with an integer that numbers its variants, and the payloads stand behind it
(`EnumTy.TaggedBy`). So the tag touches nothing that a payload covers, and the decision tree, which reads
the same bytes that the tag was written to, finds what was written (`EnumTy.TaggedBy.every_sound`). In other
bytes it finds a variant exactly if they begin with the number of one (`decode_tagDiscriminator_iff`).
-/
import AbstractMachine.Proofs.Discriminant
import AbstractMachine.Proofs.Layout.Ranges
import AbstractMachine.Proofs.Representation.Encoding

namespace AbstractMachine

open Slice

variable {target : Target}

/-- The results of an operation on each element of a list. -/
theorem mapM_eq_ok_iff {α β : Type} {f : α → Except Fault β} {xs : List α} {ys : List β} :
    xs.mapM f = .ok ys ↔ List.Forall₂ (fun x y => f x = .ok y) xs ys := by
  induction xs generalizing ys with
  | nil => simp [pure, Except.pure, eq_comm]
  | cons x xs ih =>
      simp only [List.mapM_cons, bind_eq_ok_iff, pure, Except.pure, Except.ok.injEq, ih]
      constructor
      · rintro ⟨y, hy, rest, all, rfl⟩
        exact .cons hy all
      · rintro (_ | ⟨hy, all⟩)
        exact ⟨_, hy, _, all, rfl⟩

/-- A tag of one write is one overlay. -/
theorem writeTag_singleton_iff {w : TagWrite} {buffer out : List AbsByte} :
    writeTag target [w] buffer = .ok out ↔
      ∃ ds, target.endian.encode w.value w.ty.size w.ty.signed = .ok ds ∧
        out = overlay buffer w.offset (AbsByte.ofData ds none) := by
  simp only [writeTag, TagWrite.apply, bind_eq_ok_iff, pure, Except.pure, Except.ok.injEq]
  constructor
  · rintro ⟨_, ⟨ds, hds, rfl⟩, rfl⟩
    exact ⟨ds, hds, rfl⟩
  · rintro ⟨ds, hds, rfl⟩
    exact ⟨_, ⟨ds, hds, rfl⟩, rfl⟩

/-! ## The tree -/

/-- The child that a number picks is the variant of that number, if there is one. -/
theorem childFor_tags (count : Nat) (n : Int) :
    Discriminator.childFor ((List.range count).map fun (i : Nat) => ⟨i, i + 1, .known i⟩) .invalid n =
      if 0 ≤ n ∧ n < count then .known n else .invalid := by
  rw [Discriminator.childFor, List.find?_map]
  by_cases named : 0 ≤ n ∧ n < count
  · obtain ⟨k, rfl⟩ := Int.eq_ofNat_of_zero_le named.1
    have first : (List.range count).find?
        ((fun b => decide (b.start ≤ (k : Int) ∧ (k : Int) < b.stop)) ∘
          fun (i : Nat) => (⟨i, i + 1, .known i⟩ : Branch)) = some k := by
      rw [List.find?_range_eq_some]
      refine ⟨?_, List.mem_range.2 (by omega), fun j before => ?_⟩
      · simp only [Function.comp_apply, decide_eq_true_eq]
        omega
      · simp only [Function.comp_apply, Bool.not_eq_true', decide_eq_false_iff_not]
        omega
    rw [first, if_pos named]
    rfl
  · have nothing : (List.range count).find?
        ((fun b => decide (b.start ≤ n ∧ n < b.stop)) ∘
          fun (i : Nat) => (⟨i, i + 1, .known i⟩ : Branch)) = none := by
      rw [List.find?_eq_none]
      intro i hi
      rw [List.mem_range] at hi
      simp only [Function.comp_apply, decide_eq_true_eq]
      omega
    rw [nothing, if_neg named]
    rfl

/-- The tree finds what the tag says, if that is the number of a variant. -/
theorem decode_tagDiscriminator_iff {tag : IntTy} {count : Nat} {data : List AbsByte} {d : Int} :
    (tagDiscriminator tag count).decode target data = some d ↔
      tag.decode target (Slice.read data 0 (0 + tag.size)) = some d ∧ 0 ≤ d ∧ d < count := by
  rw [tagDiscriminator, Discriminator.decode_branch, Option.bind_eq_some_iff]
  simp only [childFor_tags]
  constructor
  · rintro ⟨n, read, found⟩
    split at found
    · next named =>
        obtain rfl := Option.some.inj found
        exact ⟨read, named⟩
    · cases found
  · rintro ⟨read, named⟩
    exact ⟨d, read, by rw [if_pos named]; rfl⟩

/-- Where every tag is written to the front and is the number of its variant, the tree reads what was
written. -/
theorem Ty.tagsRead_of_front {e : EnumTy} {tag : IntTy} {count : Nat}
    (tree : e.discriminator = tagDiscriminator tag count)
    (front : ∀ (n : Nat) v, e.variants[n]? = some v →
      v.tagger = [⟨0, tag, n⟩] ∧ n < count ∧ tag.canRepresent n = .ok true) :
    (Ty.enum e).TagsRead target := by
  intro n v payload bytes tagged at_ _ _ write
  obtain ⟨tagger, bound, fits⟩ := front n v at_
  rw [tagger] at write
  obtain ⟨ds, hds, rfl⟩ := writeTag_singleton_iff.1 write
  have size : ((AbsByte.ofData ds none).length : Int) = tag.size := by
    rw [AbsByte.length_ofData, Endian.length_of_encode hds]
  have sign := (IntTy.canRepresent_eq_true_iff.1 fits).2.1
  rw [tree, decode_tagDiscriminator_iff, ← size, read_overlay_front]
  exact ⟨IntTy.decode_ofData hds sign, Int.natCast_nonneg n, by omega⟩

/-! ## The layout -/

/-- An enum has a variant for each list of payload types. A tag in front of the payload is its number,
and the fields of the payload are placed behind the tag. -/
structure EnumTy.TaggedBy (target : Target) (payloads : List (List Ty)) (tag : IntTy) (e : EnumTy) :
    Prop where
  length : e.variants.length = payloads.length
  variant : ∀ (i : Nat) v, e.variants[i]? = some v → ∃ tys fields, payloads[i]? = some tys ∧
    v = ⟨.tuple fields e.size, [⟨0, tag, (i : Nat)⟩]⟩ ∧ FieldsPlaced target tys tag.size e.size fields
  room : tag.size ≤ e.size
  discriminator : e.discriminator = tagDiscriminator tag payloads.length

/-- What stands at its place in a type does not reach out of the type. -/
theorem Ty.Covers.bounds {ty : Ty} (laid : ty.Every (Ty.LaidOut target)) {i : Int}
    (h : ty.Covers target i) : 0 ≤ i ∧ i < ty.byteSize target := by
  induction h with
  | bool => exact ⟨Int.le_refl 0, Int.one_pos⟩
  | int low high => exact ⟨low, high⟩
  | ptr low high => exact ⟨low, high⟩
  | @field fields size f i hf _ ih =>
      obtain ⟨low, high⟩ := ih (laid.field hf)
      refine laid.here.fields_inside f hf (f.offset + i) (Chunk.mem_iff.2 ?_)
      dsimp only [Field.extent]
      omega
  | @elem elem count k i low below _ ih =>
      obtain ⟨first, last⟩ := ih laid.elem
      obtain ⟨k, rfl⟩ := Int.eq_ofNat_of_zero_le low
      refine inside_elem (by omega) below _ (Chunk.mem_iff.2 ?_)
      dsimp only
      omega
  | chunk hc hi => exact laid.here.chunks_inside _ hc _ hi
  | @payload e v i hv _ ih =>
      have size : v.ty.byteSize target = e.size := laid.here.payloads_fill v hv
      obtain ⟨low, high⟩ := ih (laid.payload hv)
      exact ⟨low, by rwa [size] at high⟩
  | tag hv hw hi => exact laid.here.tags_inside _ hv _ hw _ hi

/-- Numbers below one that fits a type fit it too. -/
theorem IntTy.canRepresent_of_le {t : IntTy} {n k : Int} (fits : t.canRepresent n = .ok true)
    (nonneg : 0 ≤ k) (le : k ≤ n) : t.canRepresent k = .ok true := by
  rw [IntTy.canRepresent_eq_true_iff] at fits ⊢
  obtain ⟨size, sign, fits⟩ := fits
  refine ⟨size, sign, ?_⟩
  cases signed : t.signed with
  | false =>
      rw [signed, fitsBytes_unsigned] at fits
      exact fitsBytes_unsigned.2 ⟨nonneg, by omega⟩
  | true =>
      rw [signed, fitsBytes_signed] at fits
      have positive := one_shiftLeft_pos (8 * t.size.toNat - 1)
      exact fitsBytes_signed.2 ⟨by omega, by omega⟩

/-- The number of a variant fits the tag, if that of the last one does. -/
theorem canRepresent_of_last {payloads : List (List Ty)} {tag : IntTy}
    (last : payloads ≠ [] → tag.canRepresent (payloads.length - 1) = .ok true) {i : Nat}
    (bound : i < payloads.length) : tag.canRepresent i = .ok true := by
  have some : payloads ≠ [] := List.ne_nil_of_length_pos (by omega)
  exact IntTy.canRepresent_of_le (last some) (Int.natCast_nonneg i) (by omega)

namespace EnumTy.TaggedBy

variable {payloads : List (List Ty)} {tag : IntTy} {e : EnumTy} (h : e.TaggedBy target payloads tag)

include h

theorem exists_of_mem {v : Variant} (hv : v ∈ e.variants) : ∃ (i : Nat) (tys : List Ty) (fields : _),
    payloads[i]? = some tys ∧ v = ⟨.tuple fields e.size, [⟨0, tag, (i : Nat)⟩]⟩ ∧
      FieldsPlaced target tys tag.size e.size fields := by
  obtain ⟨i, at_⟩ := List.mem_iff_getElem?.1 hv
  exact ⟨i, h.variant i v at_⟩

theorem exists_variant {i : Nat} {tys : List Ty} (at_ : payloads[i]? = some tys) :
    ∃ fields, ⟨.tuple fields e.size, [⟨0, tag, (i : Nat)⟩]⟩ ∈ e.variants ∧
      FieldsPlaced target tys tag.size e.size fields := by
  have bound := (List.getElem?_eq_some_iff.1 at_).1
  have length := h.length
  have there : e.variants[i]? = some e.variants[i] := List.getElem?_eq_getElem (by omega)
  obtain ⟨tys', fields, at_', same, placed⟩ := h.variant i _ there
  obtain rfl := Option.some.inj (at_.symm.trans at_')
  exact ⟨fields, List.mem_of_getElem? (same ▸ there), placed⟩

/-- The payloads of a tagged enum are sound, if their fields are. -/
theorem every_sound_payload (nonneg : 0 ≤ tag.size)
    (parts : ∀ tys ∈ payloads, ∀ t ∈ tys, t.Every (Ty.Sound target)) {v : Variant}
    (hv : v ∈ e.variants) : v.ty.Every (Ty.Sound target) := by
  obtain ⟨i, tys, fields, at_, rfl, placed⟩ := h.exists_of_mem hv
  refine .intro (Ty.sound_tuple_iff.2 ⟨nonneg.trans h.room, placed.fieldsInside nonneg,
    placed.fieldsApart⟩) fun t ht => ?_
  obtain ⟨f, hf, rfl⟩ := List.mem_map.1 ht
  exact parts tys (List.mem_of_getElem? at_) f.ty (placed.mem_types hf)

theorem tagsFit (last : payloads ≠ [] → tag.canRepresent (payloads.length - 1) = .ok true) :
    (Ty.enum e).TagsFit := by
  intro v hv w hw
  obtain ⟨i, tys, fields, at_, rfl, -⟩ := h.exists_of_mem hv
  obtain rfl := List.mem_singleton.1 hw
  exact canRepresent_of_last last (List.getElem?_eq_some_iff.1 at_).1

theorem tagsInside : (Ty.enum e).TagsInside := by
  intro v hv w hw
  obtain ⟨i, tys, fields, -, rfl, -⟩ := h.exists_of_mem hv
  obtain rfl := List.mem_singleton.1 hw
  refine Chunk.inside_iff.2 (.inr ⟨Int.le_refl 0, ?_⟩)
  show 0 + tag.size ≤ e.size
  have := h.room
  omega

/-- A tag ends where the first field may begin. -/
theorem tagsClear
    (parts : ∀ tys ∈ payloads, ∀ t ∈ tys, t.Every (Ty.Sound target)) :
    (Ty.enum e).TagsClear target := by
  intro v hv w hw i hi covered
  obtain ⟨n, tys, fields, at_, rfl, placed⟩ := h.exists_of_mem hv
  obtain rfl := List.mem_singleton.1 hw
  rw [Chunk.mem_iff] at hi
  cases covered with
  | @field _ _ f j hf covered =>
      have sound := parts tys (List.mem_of_getElem? at_) f.ty (placed.mem_types hf)
      have low := (covered.bounds (sound.imp fun _ s => s.toLaidOut)).1
      have behind := (placed.between f hf).1
      simp only [TagWrite.extent] at hi
      omega

/-- The tree reads what the tag wrote. -/
theorem tagsRead (last : payloads ≠ [] → tag.canRepresent (payloads.length - 1) = .ok true) :
    (Ty.enum e).TagsRead target := by
  refine Ty.tagsRead_of_front h.discriminator fun n v at_ => ?_
  obtain ⟨tys, fields, number, rfl, -⟩ := h.variant n v at_
  have bound := (List.getElem?_eq_some_iff.1 number).1
  exact ⟨rfl, bound, canRepresent_of_last last bound⟩

/-- A tagged enum is sound, if the fields of its payloads are and the number of the last variant fits
the tag. -/
theorem every_sound (nonneg : 0 ≤ tag.size)
    (last : payloads ≠ [] → tag.canRepresent (payloads.length - 1) = .ok true)
    (parts : ∀ tys ∈ payloads, ∀ t ∈ tys, t.Every (Ty.Sound target)) :
    (Ty.enum e).Every (Ty.Sound target) := by
  refine .intro (Ty.sound_enum_iff.2 ⟨fun v hv => ?_, h.tagsInside, h.tagsFit last,
    h.tagsClear parts, h.tagsRead last⟩) fun t ht => ?_
  · obtain ⟨i, tys, fields, -, rfl, -⟩ := h.exists_of_mem hv
    rfl
  · obtain ⟨v, hv, rfl⟩ := List.mem_map.1 ht
    exact h.every_sound_payload nonneg parts hv

end EnumTy.TaggedBy

/-! ## The builder -/

section Builder

variable {payloads : List (List Ty)} {tag : IntTy} {e : EnumTy}

/-- The largest alignment of a tag and of all fields behind it. -/
def taggedAlign (target : Target) (payloads : List (List Ty)) (tag : IntTy) : Int :=
  largestAlign (tag.size :: payloads.flatten.map (Ty.naturalAlign target))

theorem le_taggedAlign : tag.size ≤ taggedAlign target payloads tag :=
  le_largestAlign List.mem_cons_self

/-- The builder puts a tag in front, and rounds up to the largest alignment that it was given. -/
theorem taggedBy_of_tagged (measured : ∀ tys ∈ payloads, ∀ t ∈ tys, t.Measured target)
    (sized : 0 ≤ tag.size) (h : EnumTy.tagged target payloads tag = .ok e) :
    e.TaggedBy target payloads tag ∧ (∀ tys ∈ payloads, ∀ t ∈ tys, 1 ≤ t.naturalAlign target) ∧
      1 ≤ taggedAlign target payloads tag ∧ taggedAlign target payloads tag ∣ e.size := by
  simp only [EnumTy.tagged, bind_eq_ok_iff, mapM_eq_ok_iff, pure, Except.pure, Except.ok.injEq] at h
  obtain ⟨placed, all, size, rounded, rfl⟩ := h
  obtain ⟨length, each⟩ := forall₂_iff_getElem?.1 all
  have aligned : 0 ≤ taggedAlign target payloads tag := sized.trans le_taggedAlign
  obtain ⟨one, multiple, ends⟩ := roundUp_bounds aligned rounded
  have ends : largestAlign (tag.size :: placed.map (·.2)) ≤ size := ends
  have behind {i : Nat} {tys : List Ty} {fields : List Field} {stop : Int}
      (hp : payloads[i]? = some tys) (hq : placed[i]? = some (fields, stop)) :
      FieldsPlaced target tys tag.size size fields ∧ ∀ t ∈ tys, 1 ≤ t.naturalAlign target := by
    obtain ⟨between, -, ones⟩ :=
      placed_of_placeFields (measured tys (List.mem_of_getElem? hp)) (each i tys _ hp hq)
    have last : stop ∈ tag.size :: placed.map (·.2) :=
      List.mem_cons_of_mem _ (List.mem_map.2 ⟨_, List.mem_of_getElem? hq, rfl⟩)
    exact ⟨between.mono ((le_largestAlign last).trans ends), ones⟩
  refine ⟨⟨?_, ?_, ?_, rfl⟩, ?_, one, multiple⟩
  · rw [List.length_map, List.length_zipIdx, length]
  · intro i v at_
    rw [List.getElem?_map, List.getElem?_zipIdx, Option.map_map, Option.map_eq_some_iff] at at_
    obtain ⟨⟨fields, stop⟩, hq, rfl⟩ := at_
    have bound := (List.getElem?_eq_some_iff.1 hq).1
    have hp : payloads[i]? = some payloads[i] := List.getElem?_eq_getElem (by omega)
    refine ⟨payloads[i], fields, hp, ?_, (behind hp hq).1⟩
    simp
  · exact (le_largestAlign List.mem_cons_self).trans ends
  · intro tys htys
    obtain ⟨i, hp⟩ := List.mem_iff_getElem?.1 htys
    have bound := (List.getElem?_eq_some_iff.1 hp).1
    have hq : placed[i]? = some placed[i] := List.getElem?_eq_getElem (by omega)
    exact (behind hp hq).2

/-- What the builder makes of the tag does not depend on the payloads: it is the number of the variant, in
front of it, and the tree reads it there. -/
theorem tagger_of_tagged (sized : 0 ≤ tag.size) (h : EnumTy.tagged target payloads tag = .ok e) :
    e.variants.length = payloads.length ∧ tag.size ≤ e.size ∧
      e.discriminator = tagDiscriminator tag payloads.length ∧
      ∀ (i : Nat) v, e.variants[i]? = some v → v.tagger = [⟨0, tag, i⟩] := by
  simp only [EnumTy.tagged, bind_eq_ok_iff, mapM_eq_ok_iff, pure, Except.pure, Except.ok.injEq] at h
  obtain ⟨placed, all, size, rounded, rfl⟩ := h
  have aligned : 0 ≤ taggedAlign target payloads tag := sized.trans le_taggedAlign
  have ends : largestAlign (tag.size :: placed.map (·.2)) ≤ size := (roundUp_bounds aligned rounded).2.2
  refine ⟨?_, (le_largestAlign List.mem_cons_self).trans ends, rfl, fun i v at_ => ?_⟩
  · rw [List.length_map, List.length_zipIdx, all.length_eq]
  · rw [List.getElem?_map, List.getElem?_zipIdx, Option.map_map, Option.map_eq_some_iff] at at_
    obtain ⟨⟨fields, stop⟩, -, rfl⟩ := at_
    simp

theorem exists_tagged (nonzero : ∀ tys ∈ payloads, ∀ t ∈ tys, t.naturalAlign target ≠ 0)
    (sized : 1 ≤ tag.size) : ∃ e, EnumTy.tagged target payloads tag = .ok e := by
  choose! fields stop placed using fun tys htys => exists_placeFields (nonzero tys htys) tag.size
  have all : payloads.mapM (placeFields target tag.size) =
      .ok (payloads.map fun tys => (fields tys, stop tys)) := by
    rw [mapM_eq_ok_iff, List.forall₂_map_right_iff, List.forall₂_same]
    exact placed
  have aligned : 1 ≤ taggedAlign target payloads tag := sized.trans le_taggedAlign
  obtain ⟨size, rounded⟩ := exists_roundUp
    (((payloads.map fun tys => (fields tys, stop tys)).map (·.2)).foldl max tag.size)
    (ne_of_gt aligned)
  rw [EnumTy.tagged]
  simp only [bind_eq_ok_iff]
  exact ⟨_, _, all, size, rounded, rfl⟩

end Builder

end AbstractMachine
