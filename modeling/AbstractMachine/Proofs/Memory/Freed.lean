/-
# AbstractMachine.Proofs.Memory.Freed — memory that was freed

Freeing an allocation clears a flag that nothing sets again, and an identity is never given away
twice. So what was freed is told from whatever lies at its address later on: an allocation that goes
on (`Continues`) does not come back to life, by one call (`Dead.after`) and so by any number of them
(`Dead.afterAll`), and memory bars everything that is done through a pointer to it.

Nothing here looks at addresses. A pointer to a dead allocation is barred at every address, also at
one that belongs to a live allocation by now.
-/
import AbstractMachine.Proofs.Memory.Allocator

namespace AbstractMachine

namespace Memory

variable {m m' : Memory} {p q : Pointer} {size align : Int} {kind : AllocKind} {k : Nat}

/-! ## Allocations stay -/

theorem length_le_after (m : Memory) (c : Call) :
    m.allocations.length ≤ (m.after c).allocations.length := by
  cases c with
  | allocate size align kind =>
      rcases h : m.allocate size align kind with ⟨answer, m'⟩
      rw [after, h]
      cases answer with
      | error f =>
          obtain ⟨rfl, -⟩ | ⟨c, -, rfl, -⟩ := allocate_eq_error h
          · exact Nat.le_refl _
          · exact Nat.le_refl _
      | ok p =>
          obtain ⟨a, made⟩ := made_of_allocate h
          simp [made.allocations]
  | deallocate p size align kind =>
      cases h : m.deallocate p size align kind with
      | error f => simp [after, h, orSame]
      | ok m' =>
          obtain ⟨id, a, -, -, -, -, -, -, -, rfl⟩ := deallocate_eq_ok_iff.1 h
          simp [after, h, orSame, length_allocations_modify]
  | store p data align =>
      cases h : m.store p data align with
      | error f => simp [after, h, orSame]
      | ok m' =>
          obtain ⟨-, ⟨-, rfl⟩ | ⟨-, a, -, rfl⟩⟩ := store_eq_ok_iff.1 h
          · simp [after, h, orSame]
          · simp [after, h, orSame, length_allocations_modify]
  | load p size align => exact Nat.le_refl _
  | dereferenceable p size align => exact Nat.le_refl _
  | retag p ty => exact Nat.le_refl _

/-- After a call every allocation is still there. -/
theorem exists_continues_after (numbered : m.Numbered) (c : Call) {a : Allocation}
    (found : m.allocations[k]? = some a) :
    ∃ b, (m.after c).allocations[k]? = some b ∧ a.Continues b := by
  have old := (List.getElem?_eq_some_iff.1 found).1
  have bound := Nat.lt_of_lt_of_le old (m.length_le_after c)
  refine ⟨_, List.getElem?_eq_getElem bound, ?_⟩
  cases passes_after numbered c (List.getElem?_eq_getElem bound) with
  | old ha continues =>
      obtain rfl := Option.some.inj (found.symm.trans ha)
      exact continues
  | new _ number => exact absurd number (Nat.ne_of_lt old)

/-! ## Dead allocations -/

/-- The allocation of a number was freed. -/
def Dead (m : Memory) (k : Nat) : Prop :=
  ∃ a, m.allocations[k]? = some a ∧ a.live = false

/-- What is dead stays dead. -/
theorem Dead.after (h : m.Dead k) (numbered : m.Numbered) (c : Call) : (m.after c).Dead k := by
  obtain ⟨a, found, dead⟩ := h
  obtain ⟨b, there, continues⟩ := exists_continues_after numbered c found
  refine ⟨b, there, Bool.eq_false_iff.2 fun alive => ?_⟩
  exact Bool.eq_false_iff.1 dead (continues.live alive)

theorem Dead.afterAll (h : m.Dead k) (laid : m.Laid) (calls : List Call) :
    (m.afterAll calls).Dead k := by
  induction calls using List.reverseRecOn with
  | nil => exact h
  | append_singleton calls c ih =>
      rw [afterAll_concat]
      exact ih.after (laid.afterAll calls).numbered c

/-- What a pointer that was freed named is dead. -/
theorem dead_of_deallocate (h : m.deallocate p size align kind = .ok m') :
    ∃ k : Nat, p.provenance = some ⟨k⟩ ∧ m'.Dead k := by
  obtain ⟨id, a, named, found, -, -, -, -, -, rfl⟩ := deallocate_eq_ok_iff.1 h
  obtain ⟨k, rfl, ha⟩ := exists_getElem?_of_allocation found
  refine ⟨k, named, { a with live := false }, ?_, rfl⟩
  rw [allocations_modify, if_pos (by simp), ha, Option.map_some]

/-! ## What is done through a pointer to them -/

/-- The program is to blame that there is no answer. -/
def Barred {α : Type} (x : Except Fault α) : Prop :=
  ∃ cause, x = .error (.undefined cause)

theorem Barred.bind {α β : Type} {x : Except Fault α} (h : Barred x) (f : α → Except Fault β) :
    Barred (x >>= f) := by
  obtain ⟨cause, rfl⟩ := h
  exact ⟨cause, rfl⟩

/-- A check that fails bars, and one that succeeds leaves the rest to do so. -/
theorem barred_require_bind {α : Type} {holds : Bool} {cause : Undefined}
    {f : Unit → Except Fault α} (h : holds = true → Barred (f ())) :
    Barred (require holds (.undefined cause) >>= f) := by
  cases holds with
  | false => exact ⟨cause, rfl⟩
  | true => exact h rfl

/-- Memory bars every use of a pointer, wherever it points: no byte can be asked for or changed, and
nothing freed. -/
structure Bars (m : Memory) (q : Pointer) : Prop where
  load : ∀ size align, size ≠ 0 → 1 ≤ align → Barred (m.load q size align)
  store : ∀ data align, data ≠ [] → 1 ≤ align → Barred (m.store q data align)
  dereferenceable : ∀ size align, size ≠ 0 → 1 ≤ align → Barred (m.dereferenceable q size align)
  deallocate : ∀ size align kind, Barred (m.deallocate q size align kind)

namespace Dead

theorem checkPtr (h : m.Dead k) (named : q.provenance = some ⟨k⟩) (nonempty : size ≠ 0)
    (positive : 1 ≤ align) : Barred (m.checkPtr q size align) := by
  obtain ⟨a, found, dead⟩ := h
  rw [Memory.checkPtr, isAligned_of_ne_zero (show align ≠ 0 by omega), named]
  refine barred_require_bind fun _ => ?_
  rw [if_neg nonempty]
  refine barred_require_bind fun _ => ?_
  simp only [allocation_natCast.2 found]
  exact barred_require_bind fun alive => absurd alive (Bool.eq_false_iff.1 dead)

/-- Every pointer to a dead allocation is barred. -/
theorem bars (h : m.Dead k) (named : q.provenance = some ⟨k⟩) : m.Bars q where
  load _ _ nonempty positive := (h.checkPtr named nonempty positive).bind _
  store data _ nonempty positive := by
    have nonempty : ((data.length : Nat) : Int) ≠ 0 := by
      simpa [List.length_eq_zero_iff] using nonempty
    exact (h.checkPtr named nonempty positive).bind _
  dereferenceable _ _ nonempty positive := (h.checkPtr named nonempty positive).bind _
  deallocate size align kind := by
    obtain ⟨a, found, dead⟩ := h
    refine ⟨.doubleFree, ?_⟩
    simp [Memory.deallocate, named, allocation_natCast.2 found, dead, bind, Except.bind]

/-- No new allocation takes the number of a dead one. -/
theorem provenance_ne (h : m.Dead k) {r : Pointer}
    (answer : (m.allocate size align kind).1 = .ok r) : r.provenance ≠ some ⟨k⟩ := by
  obtain ⟨a, found, -⟩ := h
  obtain ⟨b, made⟩ := made_of_allocate (Prod.ext answer rfl)
  have distinct := made.id_ne (allocation_natCast.2 found)
  rw [made.base]
  intro same
  exact distinct (Option.some.inj same).symm

end Dead

theorem eq_of_retag {ty : PtrTy} {r : Pointer} (h : m.retag q ty = .ok r) : r = q := by
  unfold retag at h
  split at h
  · exact (Except.ok.inj h).symm
  · obtain ⟨_, -, h⟩ := bind_eq_ok_iff.1 h
    exact (Except.ok.inj h).symm

/-- Freeing is for ever. Whatever was called before, once an allocation was freed memory bars every
pointer to it, also after any further calls and at any address; and no call makes another pointer to
it. -/
theorem bars_afterAll_of_deallocate {target : Target} {chooser : Chooser} {calls : List Call}
    (h : ((fresh target chooser).afterAll calls).deallocate p size align kind = .ok m')
    (later : List Call) :
    (∀ q : Pointer, q.provenance = p.provenance → (m'.afterAll later).Bars q) ∧
    (∀ size align kind r, ((m'.afterAll later).allocate size align kind).1 = .ok r →
      r.provenance ≠ p.provenance) ∧
    ∀ q ty r, (m'.afterAll later).retag q ty = .ok r → r = q := by
  have laid : m'.Laid := by
    have next := ((Laid.fresh target chooser).afterAll calls).after (.deallocate p size align kind)
    rwa [after, h, orSame] at next
  obtain ⟨k, named, freed⟩ := dead_of_deallocate h
  have dead := freed.afterAll laid later
  rw [named]
  exact ⟨fun q same => dead.bars same, fun _ _ _ r answer => dead.provenance_ne answer,
    fun _ _ _ kept => eq_of_retag kept⟩

/-- Four bytes on the heap, freed. The lowest address is given away again at once, but the old
pointer to it stays barred. -/
theorem bars_freedFour :
    ∃ m' : Memory,
      ((fresh .standard (Solver.chooser ⟨.lowest, []⟩)).afterAll [.allocate 4 4 .heap]).deallocate
        ⟨4, some ⟨0⟩⟩ 4 4 .heap = .ok m' ∧
      ((m'.afterAll []).allocate 4 4 .heap).1 = .ok ⟨4, some ⟨1⟩⟩ ∧
      (m'.afterAll [.allocate 4 4 .heap]).Bars ⟨4, some ⟨0⟩⟩ := by
  have freed : ∃ m', ((fresh .standard (Solver.chooser ⟨.lowest, []⟩)).afterAll
      [.allocate 4 4 .heap]).deallocate ⟨4, some ⟨0⟩⟩ 4 4 .heap = .ok m' ∧
      ((m'.afterAll []).allocate 4 4 .heap).1 = .ok ⟨4, some ⟨1⟩⟩ := ⟨_, rfl, rfl⟩
  obtain ⟨m', freed, again⟩ := freed
  exact ⟨m', freed, again, (bars_afterAll_of_deallocate freed [.allocate 4 4 .heap]).1 _ rfl⟩

end Memory

end AbstractMachine
