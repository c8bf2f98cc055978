/-
# AbstractMachine.Proofs.Machine.Returning — what a return does to memory

A return reads the result, writes it to the place that waits for it, and frees the locals of the
frame that it leaves. The write changes the bytes of that place and no others; to free memory changes
no bytes at all (`Frees`). So the result is found where it was written, as long as the place did not
lie in the memory of one of the locals, which is shown where calls are looked at from end to end.
-/
import AbstractMachine.Proofs.Machine.Ownership
import AbstractMachine.Proofs.Memory.Contents

namespace AbstractMachine

namespace Memory

variable {m m' : Memory} {p : Pointer} {size align : Int} {data : List AbsByte}

/-- A load is granted again, and finds the same bytes, if the allocation that its pointer names is the
same. -/
theorem load_congr (same : ∀ k : Nat, p.provenance = some ⟨k⟩ →
    m'.allocations[k]? = m.allocations[k]?) (h : m.load p size align = .ok data) :
    m'.load p size align = .ok data := by
  obtain ⟨aligned, ⟨empty, rfl⟩ | ⟨nonempty, a, hits, rfl⟩⟩ := load_eq_ok_iff.1 h
  · exact load_eq_ok_iff.2 ⟨aligned, .inl ⟨empty, rfl⟩⟩
  · obtain ⟨k, named, found⟩ := hits.exists_number
    have there : m'.allocation ⟨k⟩ = .ok a := allocation_natCast.2 ((same k named).trans found)
    exact load_eq_ok_iff.2 ⟨aligned, .inr ⟨nonempty, a,
      { hits with named := ⟨⟨k⟩, named, there⟩ }, rfl⟩⟩

/-- A store leaves alone all bytes that it does not go to. -/
theorem exists_getElem?_of_store (numbered : m.Numbered) (h : m.store p data align = .ok m') {k : Nat}
    {a : Allocation} (found : m.allocations[k]? = some a) :
    ∃ b, m'.allocations[k]? = some b ∧ b.contents.length = a.contents.length ∧
      ∀ i : Nat, ¬(p.provenance = some ⟨k⟩ ∧ p.addr ≤ a.addr + i ∧
        a.addr + i < p.addr + data.length) → b.contents[i]? = a.contents[i]? := by
  by_cases nonempty : data = []
  · obtain ⟨-, ⟨-, rfl⟩ | ⟨filled, -⟩⟩ := store_eq_ok_iff.1 h
    · exact ⟨a, found, rfl, fun _ _ => rfl⟩
    · exact absurd nonempty filled
  · obtain ⟨l, a', named, there, hits, changed, others⟩ := exists_of_store numbered h nonempty
    by_cases same : k = l
    · obtain rfl := same
      obtain rfl := Option.some.inj (found.symm.trans there)
      let piece : Piece AbsByte := ⟨p.addr - a.addr, data⟩
      refine ⟨_, changed, Slice.length_overlay_of_inside a.contents piece hits.inside, ?_⟩
      intro i outside
      show (Slice.overlay a.contents piece.start piece.content)[i]? = a.contents[i]?
      rw [Slice.getElem?_overlay a.contents piece hits.inside, if_neg]
      rw [Chunk.mem_iff]
      rintro ⟨low, high⟩
      exact outside ⟨named, by simp only [piece, Piece.extent] at low high; omega,
        by simp only [piece, Piece.extent] at low high; omega⟩
    · exact ⟨a, (others k same).trans found, rfl, fun _ _ => rfl⟩

/-- Memory was freed: the allocations that pointers were made for live no more, and the others are as
they were. -/
structure Frees (entries : List (String × Pointer)) (m m' : Memory) : Prop where
  others : ∀ k : Nat, (∀ e ∈ entries, e.2.provenance ≠ some ⟨k⟩) →
    m'.allocations[k]? = m.allocations[k]?
  freed : ∀ e ∈ entries, ∃ (k : Nat) (a : Allocation), e.2.provenance = some ⟨k⟩ ∧
    m.allocations[k]? = some a ∧ m'.allocations[k]? = some { a with live := false }

namespace Frees

variable {n : Memory} {entries : List (String × Pointer)} {e : String × Pointer}

theorem nil (m : Memory) : Frees [] m m :=
  ⟨fun _ _ => rfl, nofun⟩

/-- To free one allocation more. -/
theorem cons {k : Nat} {a : Allocation} (named : e.2.provenance = some ⟨k⟩)
    (found : m.allocations[k]? = some a)
    (h : Frees entries (m.modify ⟨k⟩ fun a => { a with live := false }) m') :
    Frees (e :: entries) m m' := by
  have here : (m.modify ⟨k⟩ fun a => { a with live := false }).allocations[k]? =
      some { a with live := false } := by
    rw [allocations_modify, if_pos (by simp), found, Option.map_some]
  have apart {l : Nat} (other : l ≠ k) :
      (m.modify ⟨k⟩ fun a => { a with live := false }).allocations[l]? = m.allocations[l]? := by
    rw [allocations_modify, if_neg (by simpa using Ne.symm other)]
  constructor
  · intro l unnamed
    obtain ⟨first, rest⟩ := List.forall_mem_cons.1 unnamed
    rw [h.others l rest, apart]
    rintro rfl
    exact first named
  · intro d hd
    rcases List.mem_cons.1 hd with rfl | hd
    · refine ⟨k, a, named, found, ?_⟩
      by_cases again : ∃ e ∈ entries, e.2.provenance = some ⟨k⟩
      -- Memory that is dead already would stay dead.
      · obtain ⟨e, he, same⟩ := again
        obtain ⟨l, b, number, there, dead⟩ := h.freed e he
        obtain rfl := number_unique same number
        obtain rfl := Option.some.inj (here.symm.trans there)
        exact dead
      · rw [h.others k fun e he same => again ⟨e, he, same⟩, here]
    · obtain ⟨l, b, number, there, dead⟩ := h.freed d hd
      by_cases same : l = k
      · obtain rfl := same
        obtain rfl := Option.some.inj (here.symm.trans there)
        exact ⟨l, a, number, found, dead⟩
      · exact ⟨l, b, number, (apart same).symm.trans there, dead⟩

/-- No bytes change. -/
theorem exists_getElem? (h : Frees entries m m') {k : Nat} {a : Allocation}
    (found : m.allocations[k]? = some a) :
    ∃ b, m'.allocations[k]? = some b ∧ b.contents = a.contents := by
  by_cases named : ∃ e ∈ entries, e.2.provenance = some ⟨k⟩
  · obtain ⟨e, he, named⟩ := named
    obtain ⟨l, b, number, there, dead⟩ := h.freed e he
    obtain rfl := number_unique named number
    obtain rfl := Option.some.inj (found.symm.trans there)
    exact ⟨_, dead, rfl⟩
  · exact ⟨a, (h.others k fun e he same => named ⟨e, he, same⟩).trans found, rfl⟩

/-- What was freed is dead. -/
theorem exists_dead (h : Frees entries m m') (numbered : m'.Numbered) (he : e ∈ entries) :
    ∃ a, e.2.provenance = some a.id ∧ m'.allocation a.id = .ok a ∧ a.live = false := by
  obtain ⟨k, a, named, -, dead⟩ := h.freed e he
  let b : Allocation := { a with live := false }
  have id : b.id = ⟨k⟩ := numbered k b dead
  refine ⟨b, named.trans (congrArg some id.symm), ?_, rfl⟩
  rw [id]
  exact allocation_natCast.2 dead

/-- A store before it changes the bytes that it goes to, and there are no others that change. -/
theorem exists_of_store (h : Frees entries n m') (numbered : m.Numbered)
    (stored : m.store p data align = .ok n) {k : Nat} {a : Allocation}
    (found : m.allocations[k]? = some a) :
    ∃ b, m'.allocations[k]? = some b ∧ b.contents.length = a.contents.length ∧
      ∀ i : Nat, ¬(p.provenance = some ⟨k⟩ ∧ p.addr ≤ a.addr + i ∧
        a.addr + i < p.addr + data.length) → b.contents[i]? = a.contents[i]? := by
  obtain ⟨b, written, length, same⟩ := exists_getElem?_of_store numbered stored found
  obtain ⟨b', after, contents⟩ := h.exists_getElem? written
  rw [← contents] at length same
  exact ⟨b', after, length, same⟩

end Frees

end Memory

namespace Machine

variable {m m' : Machine} {f : Frame} {base : List Frame} {entries : List (String × Pointer)}
  {u : Unit}

theorem frees_of_freeLocals (run : freeLocals f entries m = (.ok u, m')) :
    m.store.memory.Frees entries m'.store.memory := by
  induction entries generalizing m with
  | nil =>
      obtain ⟨-, rfl⟩ := Action.pure_eq_ok_iff.1 run
      exact .nil _
  | cons e rest ih =>
      rw [freeLocals] at run
      obtain ⟨_, n, first, run⟩ := Action.bind_eq_ok_iff.1 run
      simp only [freeLocal, Action.bind_eq_ok_iff, Action.ofExcept_eq_iff, getTarget_bind] at first
      obtain ⟨place, _, ⟨-, rfl⟩, deallocated⟩ := first
      obtain ⟨mem, journal, freed, rfl⟩ := onStore_deallocate_eq_ok deallocated
      obtain ⟨id, a, named, found, -, -, -, -, -, rfl⟩ := Memory.deallocate_eq_ok_iff.1 freed
      obtain ⟨k, rfl, there⟩ := Memory.exists_getElem?_of_allocation found
      exact .cons named there (ih run)

/-- To return is to read the result, to write it where it is waited for, and to free the locals. -/
theorem exists_of_execReturn (stack : m.stack = f :: base) (run : execReturn m = (.ok u, m')) :
    ∃ p place v mem, f.locals.find? f.function.result = some p ∧
      f.localTy f.function.result = .ok place ∧ m.store.memory.typedLoad p place = .ok v ∧
      (∀ q there, f.result = some (q, there) →
        m.store.memory.typedStore q v ⟨place.ty, there.align⟩ = .ok mem) ∧
      mem.Frees f.locals.entries m'.store.memory := by
  rw [execReturn_eq] at run
  obtain ⟨g, n₂, handed, run⟩ := Action.bind_eq_ok_iff.1 run
  obtain ⟨_, n₃, freed, run⟩ := Action.bind_eq_ok_iff.1 run
  obtain ⟨_, n₄, noted, run⟩ := Action.bind_eq_ok_iff.1 run
  obtain ⟨rfl, -⟩ := resume_eq_ok run
  have memory : m'.store.memory = n₃.store.memory := by
    cases noted
    rfl
  have frees := frees_of_freeLocals freed
  obtain ⟨_, n, popped, run⟩ := Action.bind_eq_ok_iff.1 handed
  obtain ⟨top, same⟩ := popFrame_eq_ok_iff.1 popped
  obtain ⟨rfl, rfl⟩ := List.cons.inj (stack.symm.trans top)
  have before : n.store = m.store := by rw [same]
  cases living : f.locals.find? f.function.result with
  | none =>
      rw [living] at run
      cases run
  | some p =>
      rw [living] at run
      simp only [Action.bind_eq_ok_iff, Action.ofExcept_eq_iff, Action.pure_eq_ok_iff] at run
      obtain ⟨place, _, ⟨declared, rfl⟩, v, _, loaded, _, _, delivered, rfl, rfl⟩ := run
      obtain ⟨loads, rfl⟩ := Prod.mk.inj loaded
      rw [before] at loads
      rw [← memory] at frees
      refine ⟨p, place, v, n₂.store.memory, rfl, declared, loads, ?_, frees⟩
      intro q there waiting
      rw [waiting] at delivered
      obtain ⟨mem, stored, rfl⟩ := onStore_change_eq_ok_iff.1 delivered
      rw [before] at stored
      exact stored

end Machine

end AbstractMachine
