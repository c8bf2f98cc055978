/-
# AbstractMachine.Proofs.Memory.Operations — when an operation on memory succeeds, and what it does

Each operation of memory makes its checks one after the other and then changes a single thing. What
follows says, for each of them, when it succeeds and what comes of it, as one equivalence: the rest
of the theory uses these and does not look into the operations again.

All accesses rest on `checkPtr`. It grants an access of no bytes anywhere that is aligned, and any
other one only where the pointer `Hits` a live allocation.
-/
import AbstractMachine.Proofs.Faults

namespace AbstractMachine

namespace Memory

variable {m m' : Memory} {p q : Pointer} {size align : Int} {kind : AllocKind}

/-! ## Naming -/

/-- The identity of every allocation is its number. -/
def Numbered (m : Memory) : Prop :=
  ∀ (k : Nat) (a : Allocation), m.allocations[k]? = some a → a.id = ⟨k⟩

/-- A number names the allocation that it is the number of. -/
theorem allocation_natCast {k : Nat} {a : Allocation} :
    m.allocation ⟨k⟩ = .ok a ↔ m.allocations[k]? = some a := by
  simp [allocation_eq_ok_iff]

theorem exists_getElem?_of_allocation {id : AllocId} {a : Allocation}
    (h : m.allocation id = .ok a) : ∃ k : Nat, id = ⟨k⟩ ∧ m.allocations[k]? = some a := by
  obtain ⟨nonneg, found⟩ := allocation_eq_ok_iff.1 h
  refine ⟨id.index.toNat, ?_, found⟩
  rw [Int.toNat_of_nonneg nonneg]

theorem mem_allocations_of_allocation {id : AllocId} {a : Allocation}
    (h : m.allocation id = .ok a) : a ∈ m.allocations := by
  obtain ⟨k, -, found⟩ := exists_getElem?_of_allocation h
  exact List.mem_of_getElem? found

theorem Numbered.id_eq (numbered : m.Numbered) {id : AllocId} {a : Allocation}
    (h : m.allocation id = .ok a) : a.id = id := by
  obtain ⟨k, rfl, found⟩ := exists_getElem?_of_allocation h
  exact numbered k a found

/-- The only fault of naming an allocation is that there is none. -/
theorem eq_of_allocation_eq_error {id : AllocId} {f : Fault} (h : m.allocation id = .error f) :
    f = .defect (.notAnAllocation id) := by
  unfold allocation at h
  split at h
  · split at h
    · cases h
    · exact (Except.error.inj h).symm
  · exact (Except.error.inj h).symm

/-- Memory ends no program. -/
theorem Refuses.not_ends {W : AllocId → Prop} {f : Fault} (h : m.Refuses W f) : ¬f.Ends := by
  rcases h with ordinary | ⟨id, -, missing⟩
  · exact ordinary.not_ends
  · obtain rfl := eq_of_allocation_eq_error missing
    exact not_false

/-! ## Allocation -/

theorem constraints_eq_ok_iff {c : AddressConstraints} :
    m.constraints size align = .ok c ↔
      m.target.validSize size = .ok true ∧ isPowerOfTwo align = true ∧
        ∃ limit, m.target.addrLimit = .ok limit ∧
          c = { size, align, limit, occupied := m.live.map Allocation.range } := by
  simp only [constraints, bind_eq_ok_iff, require_eq_ok_iff, pure, Except.pure, Except.ok.injEq]
  constructor
  · rintro ⟨_, valid, _, rfl, _, power, limit, hlimit, rfl⟩
    exact ⟨valid, power, limit, hlimit, rfl⟩
  · rintro ⟨valid, power, limit, hlimit, rfl⟩
    exact ⟨true, valid, (), rfl, (), power, limit, hlimit, rfl⟩

/-- A chooser's address is taken if it fits, and not otherwise. -/
theorem allocate_eq_ok_iff :
    m.allocate size align kind = (.ok p, m') ↔
      ∃ c addr, m.constraints size align = .ok c ∧ m.chooser m.asked c = .ok addr ∧
        c.admits addr = .ok true ∧ p = ⟨addr, some ⟨m.allocations.length⟩⟩ ∧
        m' = { m with asked := c :: m.asked }.addAllocation size align addr kind := by
  unfold allocate choose
  cases m.constraints size align with
  | error f => simp
  | ok c =>
      simp only [Except.ok.injEq, exists_and_left, exists_eq_left']
      cases answer : m.chooser m.asked c with
      | error f => simp
      | ok addr =>
          simp only [Except.ok.injEq, exists_eq_left']
          rcases c.admits addr with f | _ | _
          · simp
          · simp
          · simp [eq_comm]

/-- An allocation that fails made none, and leaves at most a question behind. -/
theorem allocate_eq_error {f : Fault} (h : m.allocate size align kind = (.error f, m')) :
    (m' = m ∧ m.constraints size align = .error f) ∨
      ∃ c, m.constraints size align = .ok c ∧ m' = { m with asked := c :: m.asked } ∧
        (m.chooser m.asked c = .error f ∨ ∃ addr, m.chooser m.asked c = .ok addr ∧
          (c.admits addr = .error f ∨ c.admits addr = .ok false ∧
            f = .defect (.inadmissibleAddress addr))) := by
  unfold allocate choose at h
  cases hc : m.constraints size align with
  | error e =>
      simp only [hc, Prod.mk.injEq, Except.error.injEq] at h
      exact .inl ⟨h.2.symm, congrArg Except.error h.1⟩
  | ok c =>
      simp only [hc] at h
      refine .inr ⟨c, rfl, ?_⟩
      cases answer : m.chooser m.asked c with
      | error e =>
          simp only [answer, Prod.mk.injEq, Except.error.injEq] at h
          exact ⟨h.2.symm, .inl (congrArg Except.error h.1)⟩
      | ok addr =>
          simp only [answer] at h
          cases admitted : c.admits addr with
          | error e =>
              simp only [admitted, Prod.mk.injEq, Except.error.injEq] at h
              exact ⟨h.2.symm, .inr ⟨addr, rfl, .inl (h.1 ▸ admitted)⟩⟩
          | ok fits =>
              cases fits with
              | true => simp [admitted] at h
              | false =>
                  simp only [admitted, Prod.mk.injEq, Except.error.injEq] at h
                  exact ⟨h.2.symm, .inr ⟨addr, rfl, .inr ⟨admitted, h.1.symm⟩⟩⟩

theorem validSize_eq_ok_true_iff {target : Target} :
    target.validSize size = .ok true ↔
      0 ≤ size ∧ ∃ top, (IntTy.isize target).max = .ok top ∧ size ≤ top := by
  unfold Target.validSize
  by_cases negative : size < 0
  · simp [negative, pure, Except.pure, Int.not_le.mpr negative]
  · simp [negative, bind_eq_ok_iff, pure, Except.pure, Int.not_lt.mp negative]

/-- What has changed once an allocation was made: it is there, at the end, and the chooser was
asked. -/
structure Made (m : Memory) (size align : Int) (kind : AllocKind) (p : Pointer) (m' : Memory)
    (a : Allocation) : Prop where
  allocations : m'.allocations = m.allocations ++ [a]
  rest : ∃ c, m.constraints size align = .ok c ∧
    m' = { m with allocations := m.allocations ++ [a], asked := c :: m.asked }
  id : a.id = ⟨m.allocations.length⟩
  contents : a.contents = AbsByte.blank size
  size : a.size = size
  align : a.align = align
  kind : a.kind = kind
  live : a.live = true
  base : p = a.base

theorem made_of_allocate (h : m.allocate size align kind = (.ok p, m')) :
    ∃ a, m.Made size align kind p m' a := by
  obtain ⟨c, addr, hc, -, -, rfl, rfl⟩ := allocate_eq_ok_iff.1 h
  obtain ⟨valid, -⟩ := constraints_eq_ok_iff.1 hc
  have nonneg := (validSize_eq_ok_true_iff.1 valid).1
  refine ⟨⟨⟨m.allocations.length⟩, AbsByte.blank size, addr, align, kind, true⟩, ?_⟩
  refine ⟨rfl, ⟨c, hc, rfl⟩, rfl, rfl, ?_, rfl, rfl, rfl, rfl⟩
  rw [Allocation.size, AbsByte.length_blank, Int.toNat_of_nonneg nonneg]

namespace Made

variable {a : Allocation}

theorem getElem?_length (made : m.Made size align kind p m' a) :
    m'.allocations[m.allocations.length]? = some a := by
  rw [made.allocations, List.getElem?_concat_length]

theorem getElem?_of_lt (made : m.Made size align kind p m' a) {k : Nat}
    (old : k < m.allocations.length) : m'.allocations[k]? = m.allocations[k]? := by
  rw [made.allocations, List.getElem?_append_left old]

/-- There is nothing in memory but what there was, and the new allocation. -/
theorem old_or_new (made : m.Made size align kind p m' a) {k : Nat} {b : Allocation}
    (found : m'.allocations[k]? = some b) :
    m.allocations[k]? = some b ∨ k = m.allocations.length ∧ b = a := by
  by_cases old : k < m.allocations.length
  · exact .inl (made.getElem?_of_lt old ▸ found)
  · have bound := (List.getElem?_eq_some_iff.1 found).1
    rw [made.allocations, List.length_append, List.length_singleton] at bound
    obtain rfl : k = m.allocations.length := by omega
    exact .inr ⟨rfl, Option.some.inj (found.symm.trans made.getElem?_length)⟩

/-- What an identity named it names still. -/
theorem allocation (made : m.Made size align kind p m' a) {id : AllocId} {b : Allocation}
    (found : m.allocation id = .ok b) : m'.allocation id = .ok b := by
  obtain ⟨k, rfl, hb⟩ := exists_getElem?_of_allocation found
  have old := (List.getElem?_eq_some_iff.1 hb).1
  exact allocation_natCast.2 ((made.getElem?_of_lt old).trans hb)

theorem allocation_new (made : m.Made size align kind p m' a) : m'.allocation a.id = .ok a := by
  rw [made.id]
  exact allocation_natCast.2 made.getElem?_length

/-- No identity named the new allocation before. -/
theorem id_ne (made : m.Made size align kind p m' a) {id : AllocId} {b : Allocation}
    (found : m.allocation id = .ok b) : id ≠ a.id := by
  obtain ⟨k, rfl, hb⟩ := exists_getElem?_of_allocation found
  have old := (List.getElem?_eq_some_iff.1 hb).1
  rw [made.id]
  intro same
  have number := congrArg AllocId.index same
  simp only at number
  omega

theorem numbered (made : m.Made size align kind p m' a) (h : m.Numbered) : m'.Numbered := by
  intro k b found
  obtain old | ⟨rfl, rfl⟩ := made.old_or_new found
  · exact h k b old
  · exact made.id

theorem target (made : m.Made size align kind p m' a) : m'.target = m.target := by
  obtain ⟨c, -, rfl⟩ := made.rest
  rfl

end Made

theorem admits_eq_ok_true_iff {c : AddressConstraints} {addr : Int} :
    c.admits addr = .ok true ↔ 0 < addr ∧ c.align ≠ 0 ∧ addr % c.align = 0 ∧
      addr + c.size < c.limit ∧
      ∀ r ∈ c.occupied, addr + c.size ≤ r.start ∨ r.stop ≤ addr := by
  unfold AddressConstraints.admits
  by_cases low : addr ≤ 0
  · rw [if_pos low]
    simp [Int.not_lt.mpr low]
  · rw [if_neg low]
    by_cases zero : c.align = 0
    · simp [zero]
    · rw [if_neg zero]
      simp [AddressConstraints.apart, zero, Int.not_le.mp low, and_assoc]

/-- A change to one allocation is not seen through another identity. -/
theorem allocation_modify_of_ne {id other : AllocId} {f : Allocation → Allocation}
    {a b : Allocation} (named : m.allocation id = .ok a) (distinct : other ≠ id)
    (found : m.allocation other = .ok b) : (m.modify id f).allocation other = .ok b := by
  obtain ⟨k, rfl, -⟩ := exists_getElem?_of_allocation named
  obtain ⟨l, rfl, hb⟩ := exists_getElem?_of_allocation found
  have numbers : k ≠ l := fun same => distinct (same ▸ rfl)
  rw [allocation_natCast, allocations_modify, if_neg (by simpa using numbers)]
  exact hb

theorem numbered_modify {id : AllocId} {f : Allocation → Allocation} (h : m.Numbered)
    (same : ∀ a, (f a).id = a.id) : (m.modify id f).Numbered := by
  intro k b found
  rw [allocations_modify] at found
  split at found
  · obtain ⟨a, ha, rfl⟩ := Option.map_eq_some_iff.1 found
    rw [same]
    exact h k a ha
  · exact h k b found

/-- What is in memory after a change of one allocation was there before, or is the changed one. -/
theorem mem_modify {id : AllocId} {f : Allocation → Allocation} {a b : Allocation}
    (named : m.allocation id = .ok a) (h : b ∈ (m.modify id f).allocations) :
    b = f a ∨ ∃ k : Nat, (⟨k⟩ : AllocId) ≠ id ∧ m.allocations[k]? = some b := by
  obtain ⟨k, rfl, ha⟩ := exists_getElem?_of_allocation named
  obtain ⟨l, found⟩ := List.mem_iff_getElem?.1 h
  rw [allocations_modify] at found
  split at found
  · have same : k = l := by simpa using ‹_›
    rw [← same, ha] at found
    exact .inl (Option.some.inj found).symm
  · refine .inr ⟨l, ?_, found⟩
    have other : k ≠ l := by simpa using ‹_›
    intro same
    have number := congrArg AllocId.index same
    simp only at number
    omega

theorem deallocate_eq_ok_iff :
    m.deallocate p size align kind = .ok m' ↔
      ∃ id a, p.provenance = some id ∧ m.allocation id = .ok a ∧ a.live = true ∧ a.kind = kind ∧
        p.addr = a.addr ∧ size = a.size ∧ align = a.align ∧
        m' = m.modify id fun a => { a with live := false } := by
  unfold deallocate
  cases hp : p.provenance with
  | none => simp
  | some id =>
      simp only [bind_eq_ok_iff, require_eq_ok_iff, pure, Except.pure, Except.ok.injEq,
        beq_iff_eq, Option.some.injEq, exists_eq_left', exists_and_left, exists_const]
      grind

/-! ## Access -/

/-- The bytes from a pointer on lie in a live allocation that the pointer's provenance names. -/
structure Hits (m : Memory) (p : Pointer) (size : Int) (a : Allocation) : Prop where
  named : ∃ id, p.provenance = some id ∧ m.allocation id = .ok a
  live : a.live = true
  nonnull : p.addr ≠ 0
  start : a.addr ≤ p.addr
  stop : p.addr + size ≤ a.stop

theorem checkPtr_eq_ok_iff {o : Option Allocation} :
    m.checkPtr p size align = .ok o ↔ isAligned p.addr align = .ok true ∧
      (size = 0 ∧ o = none ∨ size ≠ 0 ∧ ∃ a, o = some a ∧ m.Hits p size a) := by
  unfold checkPtr
  simp only [bind_eq_ok_iff, require_eq_ok_iff]
  by_cases zero : size = 0
  · simp [zero, pure, Except.pure, eq_comm]
  · simp only [if_neg zero, bind_eq_ok_iff, require_eq_ok_iff, bne_iff_ne]
    constructor
    · rintro ⟨_, aligned, _, rfl, _, nonnull, h⟩
      refine ⟨aligned, .inr ⟨zero, ?_⟩⟩
      cases named : p.provenance with
      | none => simp [named] at h
      | some id =>
          simp only [named, bind_eq_ok_iff, require_eq_ok_iff, pure, Except.pure,
            Except.ok.injEq, Bool.and_eq_true, decide_eq_true_eq] at h
          obtain ⟨a, found, _, live, _, ⟨start, stop⟩, rfl⟩ := h
          exact ⟨a, rfl, ⟨id, named, found⟩, live, nonnull, start, stop⟩
    · rintro ⟨aligned, ⟨none, -⟩ | ⟨-, a, rfl, ⟨id, named, found⟩, live, nonnull, start, stop⟩⟩
      · exact absurd none zero
      refine ⟨true, aligned, (), rfl, (), nonnull, ?_⟩
      simp only [named, bind_eq_ok_iff, require_eq_ok_iff, pure, Except.pure, Bool.and_eq_true,
        decide_eq_true_eq]
      exact ⟨a, found, (), live, (), ⟨start, stop⟩, rfl⟩

theorem load_eq_ok_iff {data : List AbsByte} :
    m.load p size align = .ok data ↔ isAligned p.addr align = .ok true ∧
      (size = 0 ∧ data = [] ∨ size ≠ 0 ∧ ∃ a, m.Hits p size a ∧
        data = Slice.read a.contents (p.addr - a.addr) (p.addr - a.addr + size)) := by
  simp only [load, bind_eq_ok_iff, checkPtr_eq_ok_iff]
  constructor
  · rintro ⟨o, ⟨aligned, ⟨zero, rfl⟩ | ⟨nonzero, a, rfl, hits⟩⟩, h⟩
    · exact ⟨aligned, .inl ⟨zero, (Except.ok.inj h).symm⟩⟩
    · exact ⟨aligned, .inr ⟨nonzero, a, hits, (Except.ok.inj h).symm⟩⟩
  · rintro ⟨aligned, ⟨zero, rfl⟩ | ⟨nonzero, a, hits, rfl⟩⟩
    · exact ⟨none, ⟨aligned, .inl ⟨zero, rfl⟩⟩, rfl⟩
    · exact ⟨some a, ⟨aligned, .inr ⟨nonzero, a, rfl, hits⟩⟩, rfl⟩

theorem store_eq_ok_iff {data : List AbsByte} :
    m.store p data align = .ok m' ↔ isAligned p.addr align = .ok true ∧
      (data = [] ∧ m' = m ∨ data ≠ [] ∧ ∃ a, m.Hits p data.length a ∧
        m' = m.modify a.id fun b =>
          { b with contents := Slice.overlay b.contents (p.addr - b.addr) data }) := by
  have empty : ((data.length : Nat) : Int) = 0 ↔ data = [] := by
    rw [Int.natCast_eq_zero, List.length_eq_zero_iff]
  simp only [store, bind_eq_ok_iff, checkPtr_eq_ok_iff, ne_eq, empty]
  constructor
  · rintro ⟨o, ⟨aligned, ⟨zero, rfl⟩ | ⟨nonzero, a, rfl, hits⟩⟩, h⟩
    · exact ⟨aligned, .inl ⟨zero, (Except.ok.inj h).symm⟩⟩
    · exact ⟨aligned, .inr ⟨nonzero, a, hits, (Except.ok.inj h).symm⟩⟩
  · rintro ⟨aligned, ⟨zero, rfl⟩ | ⟨nonzero, a, hits, rfl⟩⟩
    · exact ⟨none, ⟨aligned, .inl ⟨zero, rfl⟩⟩, rfl⟩
    · exact ⟨some a, ⟨aligned, .inr ⟨nonzero, a, rfl, hits⟩⟩, rfl⟩

theorem typedLoad_eq_ok_iff {place : PlaceTy} {v : Value} :
    m.typedLoad p place = .ok v ↔
      ∃ data, m.load p (place.byteSize m.target) place.align = .ok data ∧
        place.ty.decode m.target data = .ok (some v) := by
  simp only [typedLoad, bind_eq_ok_iff]
  constructor
  · rintro ⟨data, loaded, o, decoded, h⟩
    cases o with
    | none => cases h
    | some w => exact ⟨data, loaded, Except.ok.inj h ▸ decoded⟩
  · rintro ⟨data, loaded, decoded⟩
    exact ⟨data, loaded, some v, decoded, rfl⟩

theorem typedStore_eq_ok_iff {place : PlaceTy} {v : Value} :
    m.typedStore p v place = .ok m' ↔
      ∃ data, place.ty.encode m.target v = .ok data ∧ m.store p data place.align = .ok m' := by
  simp only [typedStore, bind_eq_ok_iff, require_eq_ok_iff]
  constructor
  · rintro ⟨_, -, _, -, data, encoded, stored⟩
    exact ⟨data, encoded, stored⟩
  · rintro ⟨data, encoded, stored⟩
    have wellFormed : place.ty.wellFormed m.target v = .ok true := by
      simp only [Ty.encode, bind_eq_ok_iff, require_eq_ok_iff] at encoded
      obtain ⟨_, wellFormed, _, rfl, -⟩ := encoded
      exact wellFormed
    exact ⟨true, wellFormed, (), rfl, data, encoded, stored⟩

/-- An offset that stays inside an allocation yields a pointer with the same provenance. -/
theorem offsetInBounds_eq_ok_iff {offset : Int} :
    m.offsetInBounds p offset = .ok q ↔
      m.target.isizeInBounds offset = .ok true ∧
        m.target.addrInBounds (p.addr + offset) = .ok true ∧
        m.dereferenceable { p with addr := min p.addr (p.addr + offset) }
          (max p.addr (p.addr + offset) - min p.addr (p.addr + offset)) 1 = .ok () ∧
        q = { p with addr := p.addr + offset } := by
  simp only [offsetInBounds, bind_eq_ok_iff, require_eq_ok_iff, pure, Except.pure,
    Except.ok.injEq]
  grind

end Memory

end AbstractMachine
