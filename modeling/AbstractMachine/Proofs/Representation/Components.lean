/-
# AbstractMachine.Proofs.Representation.Components — tuples and arrays as rows of slots

A tuple says where its components lie, one by one; those of an array lie behind each other. As far as
bytes are concerned that is all the difference. So both are taken for a list of fields here
(`Ty.slots`): bytes stand for a tuple of values if the slice of each slot stands for its value
(`decode_eq_tuple_iff`). Where the slots are apart, bytes that are laid over one of them change its
value and no other (`decode_overlay`).
-/
import AbstractMachine.Machine.Eval
import AbstractMachine.Proofs.Representation.RoundTrip

namespace AbstractMachine

open Slice

variable {target : Target}

namespace Ty

variable {ty : Ty} {data bytes : List AbsByte} {es : List Value} {v : Value} {f g : Field}
  {i j : Nat}

/-- The fields of a tuple, and the elements of an array as if they were fields. -/
def slots (target : Target) : Ty → List Field
  | .tuple fields _ => fields
  | .array elem count =>
      (List.range count.toNat).map fun (k : Nat) => ⟨k * elem.byteSize target, elem⟩
  | _ => []

theorem slots_array_eq_some_iff {elem : Ty} {count : Int} :
    ((Ty.array elem count).slots target)[i]? = some f ↔
      (i : Int) < count ∧ f = ⟨i * elem.byteSize target, elem⟩ := by
  rw [slots, List.getElem?_map, Option.map_eq_some_iff]
  constructor
  · rintro ⟨k, hk, rfl⟩
    obtain ⟨bound, rfl⟩ := List.getElem?_eq_some_iff.1 hk
    rw [List.length_range] at bound
    rw [List.getElem_range]
    exact ⟨by omega, rfl⟩
  · rintro ⟨bound, rfl⟩
    exact ⟨i, List.getElem?_range (by omega), rfl⟩

theorem Every.slot {P : Ty → Prop} (h : ty.Every P) (hf : f ∈ ty.slots target) : f.ty.Every P := by
  cases ty with
  | tuple fields size => exact h.field hf
  | array elem count =>
      obtain ⟨k, -, rfl⟩ := List.mem_map.1 hf
      exact h.elem
  | _ => cases hf

/-- Bytes stand for a tuple if the slices of the slots stand for its parts. -/
theorem decode_eq_tuple_iff :
    ty.decode target data = .ok (some (.tuple es)) ↔
      ty.requireTuple = .ok () ∧ (data.length : Int) = ty.byteSize target ∧
        List.Forall₂ (fun (f : Field) v => f.ty.decode target
          (Slice.read data f.offset (f.offset + f.ty.byteSize target)) = .ok (some v))
          (ty.slots target) es := by
  cases ty with
  | tuple fields size => simp [decode_tuple_iff, requireTuple, byteSize, slots]
  | array elem count =>
      have next (k : Nat) : ((k : Int) + 1) * elem.byteSize target =
          k * elem.byteSize target + elem.byteSize target := by
        rw [Int.add_mul, Int.one_mul]
      simp only [decode_array_iff, slots, elementRanges, List.forall₂_map_left_iff, next,
        requireTuple, byteSize, Value.tuple.injEq, exists_eq_left', true_and]
  | bool => simp [decode_bool_iff, requireTuple]
  | int t => simp [decode_int_iff, requireTuple]
  | ptr t => simp [decode_ptr_iff, requireTuple]
  | union u => simp [decode_union_iff, requireTuple]
  | enum e => simp [decode_enum_iff, requireTuple]

/-- A slot holds a component. -/
theorem exists_of_slot (decoded : ty.decode target data = .ok (some (.tuple es)))
    (at_ : (ty.slots target)[i]? = some f) : ∃ v, es[i]? = some v ∧ f.ty.decode target
      (Slice.read data f.offset (f.offset + f.ty.byteSize target)) = .ok (some v) := by
  obtain ⟨-, -, all⟩ := decode_eq_tuple_iff.1 decoded
  obtain ⟨same, each⟩ := forall₂_iff_getElem?.1 all
  have bound := (List.getElem?_eq_some_iff.1 at_).1
  have there : es[i]? = some es[i] := List.getElem?_eq_getElem (by omega)
  exact ⟨es[i], there, each i f _ at_ there⟩

/-- A slot lies inside its type. -/
theorem slot_inside (inside : ty.FieldsInside target) (hf : f ∈ ty.slots target)
    (nonneg : 0 ≤ f.ty.byteSize target) : (f.extent target).Inside (ty.byteSize target) := by
  cases ty with
  | tuple fields size => exact inside f hf
  | array elem count =>
      obtain ⟨k, hk, rfl⟩ := List.mem_map.1 hf
      rw [List.mem_range] at hk
      exact inside_elem nonneg (by omega)
  | _ => cases hf

/-- Elements of an array lie apart from each other. -/
theorem apart_elem {size : Int} {j k : Nat} (distinct : j ≠ k) :
    (Chunk.mk (j * size) size).Apart ⟨k * size, size⟩ := by
  rw [Chunk.apart_iff]
  dsimp only
  by_cases empty : size ≤ 0
  · exact .inl empty
  · have step {m n : Nat} (lt : m < n) : m * size + size ≤ n * size := by
      have next : ((m + 1 : Nat) : Int) * size ≤ n * size :=
        Int.mul_le_mul_of_nonneg_right (by omega) (by omega)
      rwa [Int.natCast_add, Int.add_mul, Int.natCast_one, Int.one_mul] at next
    rcases Nat.lt_or_gt_of_ne distinct with lt | lt
    · exact .inr (.inr (.inl (step lt)))
    · exact .inr (.inr (.inr (step lt)))

/-- Two slots lie apart from each other. -/
theorem slots_apart (apart : ty.FieldsApart target) (hf : (ty.slots target)[i]? = some f)
    (hg : (ty.slots target)[j]? = some g) (distinct : i ≠ j) :
    (f.extent target).Apart (g.extent target) := by
  cases ty with
  | tuple fields size =>
      have ordered {i j : Nat} {f g : Field} (hf : fields[i]? = some f) (hg : fields[j]? = some g)
          (lt : i < j) : (f.extent target).Apart (g.extent target) := by
        obtain ⟨hi, rfl⟩ := List.getElem?_eq_some_iff.1 hf
        obtain ⟨hj, rfl⟩ := List.getElem?_eq_some_iff.1 hg
        exact List.pairwise_iff_getElem.1 apart i j hi hj lt
      rcases Nat.lt_or_gt_of_ne distinct with lt | lt
      · exact ordered hf hg lt
      · exact fun k hk hk' => ordered hg hf lt k hk' hk
  | array elem count =>
      obtain ⟨-, rfl⟩ := slots_array_eq_some_iff.1 hf
      obtain ⟨-, rfl⟩ := slots_array_eq_some_iff.1 hg
      exact apart_elem distinct
  | _ => cases hf

/-- Bytes that are laid over a slot change the component that lies there. -/
theorem decode_overlay (inside : ty.FieldsInside target) (apart : ty.FieldsApart target)
    (decoded : ty.decode target data = .ok (some (.tuple es)))
    (at_ : (ty.slots target)[i]? = some f) (size : (bytes.length : Int) = f.ty.byteSize target)
    (new : f.ty.decode target bytes = .ok (some v)) :
    ty.decode target (Slice.overlay data f.offset bytes) = .ok (some (.tuple (es.set i v))) := by
  obtain ⟨tuple, length, all⟩ := decode_eq_tuple_iff.1 decoded
  obtain ⟨same, each⟩ := forall₂_iff_getElem?.1 all
  let piece : Piece AbsByte := ⟨f.offset, bytes⟩
  have extent : piece.extent = f.extent target := by
    rw [Piece.extent, Field.extent, size]
  have fits : piece.extent.Inside data.length := by
    rw [extent, length]
    exact slot_inside inside (List.mem_of_getElem? at_) (by omega)
  have kept : (Slice.overlay data f.offset bytes).length = data.length :=
    length_overlay_of_inside data piece fits
  refine decode_eq_tuple_iff.2 ⟨tuple, by rw [kept, length], ?_⟩
  refine forall₂_iff_getElem?.2 ⟨by rw [List.length_set, same], fun j g w hg hw => ?_⟩
  by_cases here : i = j
  · obtain rfl := here
    obtain rfl := Option.some.inj (hg.symm.trans at_)
    have bound := (List.getElem?_eq_some_iff.1 at_).1
    rw [List.getElem?_set_self (by omega)] at hw
    obtain rfl := Option.some.inj hw
    have found : Slice.read (Slice.overlay data g.offset bytes) g.offset (g.offset + bytes.length) =
        bytes :=
      read_overlayAll (List.forall_mem_singleton.2 fits) (List.pairwise_singleton _ piece)
        List.mem_cons_self
    rw [← size, found]
    exact new
  · rw [List.getElem?_set_ne here] at hw
    have old := each j g w hg hw
    -- What decodes has as many bytes as its type says, so that is not less than none.
    have nonneg : 0 ≤ g.ty.byteSize target := by
      have := length_of_decode old
      omega
    have within : (g.extent target).Inside data.length := by
      rw [length]
      exact slot_inside inside (List.mem_of_getElem? hg) nonneg
    have aside : piece.extent.Apart (g.extent target) := by
      rw [extent]
      exact slots_apart apart at_ hg here
    have unchanged := read_overlay_of_apart data piece fits nonneg within aside
    rw [unchanged]
    exact old

end Ty

end AbstractMachine
