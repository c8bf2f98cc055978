/-
# AbstractMachine.Proofs.Memory.Outline — memory without its bytes

The outline of memory is all of it but what the bytes are: which allocations there are, where they
lie, how long they are, what they were made for and which of them live. Whether an access is granted
depends on the outline alone. A store keeps it (`outline_of_store`): the bytes that it lays over an
allocation lie inside of it, since the access was granted, so the number of bytes stays the same.

That the store changes the very allocation that it was granted rests on allocations being numbered.
-/
import Mathlib.Data.List.Forall2
import AbstractMachine.Proofs.Memory.Operations

namespace AbstractMachine

namespace Allocation

/-- An allocation with its bytes forgotten. -/
def outline (a : Allocation) : Allocation :=
  { a with contents := AbsByte.blank a.size }

variable {a b : Allocation}

@[simp] theorem outline_size (a : Allocation) : a.outline.size = a.size := by
  simp [size, outline]

/-- Changing the bytes of an allocation does not change its outline, if it changes no length. -/
theorem outline_contents {a : Allocation} {bs : List AbsByte} (h : bs.length = a.contents.length) :
    { a with contents := bs }.outline = a.outline := by
  simp [outline, size, h]

/-- Allocations have the same outline if they differ in nothing but their bytes. -/
theorem outline_eq_iff : a.outline = b.outline ↔
    a.id = b.id ∧ a.addr = b.addr ∧ a.align = b.align ∧ a.kind = b.kind ∧ a.live = b.live ∧
      a.size = b.size := by
  constructor
  · intro h
    have size := congrArg Allocation.size h
    rw [outline_size, outline_size] at size
    simp only [outline, Allocation.mk.injEq] at h
    obtain ⟨id, -, addr, align, kind, live⟩ := h
    exact ⟨id, addr, align, kind, live, size⟩
  · rintro ⟨id, addr, align, kind, live, size⟩
    simp only [outline, id, addr, align, kind, live, size]

end Allocation

namespace Memory

variable {m m' : Memory} {p : Pointer} {size align : Int}

/-- Memory with its bytes forgotten. -/
def outline (m : Memory) : Memory :=
  { m with allocations := m.allocations.map Allocation.outline }

theorem getElem?_outline (m : Memory) (k : Nat) :
    m.outline.allocations[k]? = (m.allocations[k]?).map Allocation.outline := by
  simp [outline]

theorem target_of_outline_eq (h : m'.outline = m.outline) : m'.target = m.target := by
  have same := congrArg Memory.target h
  exact same

/-- Where memories have the same outline, so do their allocations of the same number. -/
theorem exists_of_outline_eq (h : m'.outline = m.outline) {k : Nat} {a' : Allocation}
    (found : m'.allocations[k]? = some a') :
    ∃ a, m.allocations[k]? = some a ∧ a.outline = a'.outline := by
  have same := m.getElem?_outline k
  rw [← h, getElem?_outline, found, Option.map_some] at same
  obtain ⟨a, ha, outline⟩ := Option.map_eq_some_iff.1 same.symm
  exact ⟨a, ha, outline⟩

theorem length_of_outline_eq (h : m'.outline = m.outline) :
    m'.allocations.length = m.allocations.length := by
  have same := congrArg (fun m : Memory => m.allocations.length) h
  simpa only [outline, List.length_map] using same

theorem exists_mem_of_outline_eq (h : m'.outline = m.outline) {a' : Allocation}
    (mem : a' ∈ m'.allocations) : ∃ a ∈ m.allocations, a.outline = a'.outline := by
  obtain ⟨k, found⟩ := List.mem_iff_getElem?.1 mem
  obtain ⟨a, ha, outline⟩ := exists_of_outline_eq h found
  exact ⟨a, List.mem_of_getElem? ha, outline⟩

theorem exists_allocation_of_outline_eq (h : m'.outline = m.outline) {id : AllocId}
    {a' : Allocation} (found : m'.allocation id = .ok a') :
    ∃ a, m.allocation id = .ok a ∧ a.outline = a'.outline := by
  obtain ⟨k, rfl, ha'⟩ := exists_getElem?_of_allocation found
  obtain ⟨a, ha, outline⟩ := exists_of_outline_eq h ha'
  exact ⟨a, allocation_natCast.2 ha, outline⟩

theorem numbered_of_outline_eq (h : m'.outline = m.outline) (numbered : m.Numbered) :
    m'.Numbered := by
  intro k a' found
  obtain ⟨a, ha, outline⟩ := exists_of_outline_eq h found
  rw [← numbered k a ha]
  exact (congrArg Allocation.id outline).symm

/-- A change that keeps the outline of the one allocation that it is made to keeps that of memory. -/
theorem outline_modify {id : AllocId} {f : Allocation → Allocation}
    (h : ∀ a, m.allocations[id.index.toNat]? = some a → (f a).outline = a.outline) :
    (m.modify id f).outline = m.outline := by
  have same : (m.modify id f).outline.allocations = m.outline.allocations := by
    apply List.ext_getElem?
    intro k
    rw [getElem?_outline, getElem?_outline, allocations_modify]
    split
    · subst k
      cases found : m.allocations[id.index.toNat]? with
      | none => rfl
      | some a => exact congrArg some (h a found)
    · rfl
  exact congrArg (fun as => ({ m with allocations := as } : Memory)) same

/-- A store keeps the outline. -/
theorem outline_of_store {data : List AbsByte} (numbered : m.Numbered)
    (h : m.store p data align = .ok m') : m'.outline = m.outline := by
  obtain ⟨-, ⟨-, rfl⟩ | ⟨-, a, hits, rfl⟩⟩ := store_eq_ok_iff.1 h
  · rfl
  · apply outline_modify
    intro b hb
    -- The allocation that was found is the one that is changed.
    obtain ⟨id, -, found⟩ := hits.named
    have same := (allocation_eq_ok_iff.1 found).2
    rw [numbered.id_eq found, same] at hb
    obtain rfl := Option.some.inj hb
    have start := hits.start
    have stop := hits.stop
    rw [Allocation.stop, Allocation.size] at stop
    exact Allocation.outline_contents (Slice.length_overlay _ _ (by omega) (by omega))

end Memory

end AbstractMachine
