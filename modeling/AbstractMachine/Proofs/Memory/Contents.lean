/-
# AbstractMachine.Proofs.Memory.Contents — which bytes a load finds

Memory is a store of its own for each allocation. A load finds what was last stored at an address
through a pointer to the same allocation, or else that nothing was; what lies at the same address in
another allocation has no part in it. The ranges of a store and of a load may overlap in any way: the
statement is about one byte at a time (`Overwritten`).

Whether a load is granted depends on the outline of memory alone, and a store keeps that. So the loads
that succeed are the same before and after, and they find the same bytes but for those that were
stored.
-/
import AbstractMachine.Proofs.Codec
import AbstractMachine.Proofs.Definedness
import AbstractMachine.Proofs.Memory.Allocator
import AbstractMachine.Proofs.Overlay

namespace AbstractMachine

/-- What is read was there. -/
theorem Slice.mem_of_mem_read {α : Type} {xs : List α} {start stop : Int} {x : α}
    (h : x ∈ read xs start stop) : x ∈ xs :=
  List.mem_of_mem_take (List.mem_of_mem_drop h)

namespace Memory

variable {m m' : Memory} {p q : Pointer} {size align : Int} {kind : AllocKind}
  {data old new : List AbsByte} {a b : Allocation}

/-! ## Loads -/

/-- The range of an access that hits an allocation lies inside it. -/
theorem Hits.inside (hits : m.Hits q size a) :
    (Chunk.mk (q.addr - a.addr) size).Inside a.contents.length := by
  have start := hits.start
  have stop := hits.stop
  rw [Allocation.stop, Allocation.size] at stop
  exact Chunk.inside_iff.2 (.inr ⟨by simp only; omega, by simp only; omega⟩)

theorem Hits.exists_number (hits : m.Hits q size a) :
    ∃ k : Nat, q.provenance = some ⟨k⟩ ∧ m.allocations[k]? = some a := by
  obtain ⟨id, named, found⟩ := hits.named
  obtain ⟨k, rfl, there⟩ := exists_getElem?_of_allocation found
  exact ⟨k, named, there⟩

/-- A pointer names at most one number. -/
theorem number_unique {o : Option AllocId} {k l : Nat} (hk : o = some ⟨k⟩) (hl : o = some ⟨l⟩) :
    k = l := by
  exact Int.ofNat_inj.1 (congrArg AllocId.index (Option.some.inj (hk.symm.trans hl)))

/-- An access that hits an allocation hits it whatever its bytes. -/
theorem Hits.of_outline_eq (h : m'.outline = m.outline) (hits : m'.Hits q size a) :
    ∃ b, m.Hits q size b ∧ b.outline = a.outline := by
  obtain ⟨id, named, found⟩ := hits.named
  obtain ⟨b, there, same⟩ := exists_allocation_of_outline_eq h found
  obtain ⟨-, addr, -, -, live, length⟩ := Allocation.outline_eq_iff.1 same
  have stop : b.stop = a.stop := by rw [Allocation.stop, Allocation.stop, addr, length]
  refine ⟨b, ⟨⟨id, named, there⟩, live.trans hits.live, hits.nonnull, ?_, ?_⟩, same⟩
  · exact addr ▸ hits.start
  · exact stop ▸ hits.stop

/-- Whether a load is granted does not depend on the bytes in memory. -/
theorem exists_load_of_outline_eq (h : m'.outline = m.outline)
    (loaded : m'.load q size align = .ok new) : ∃ old, m.load q size align = .ok old := by
  obtain ⟨aligned, ⟨empty, -⟩ | ⟨nonempty, a, hits, -⟩⟩ := load_eq_ok_iff.1 loaded
  · exact ⟨_, load_eq_ok_iff.2 ⟨aligned, .inl ⟨empty, rfl⟩⟩⟩
  · obtain ⟨b, hits, -⟩ := hits.of_outline_eq h
    exact ⟨_, load_eq_ok_iff.2 ⟨aligned, .inr ⟨nonempty, b, hits, rfl⟩⟩⟩

theorem length_of_load (nonneg : 0 ≤ size) (h : m.load q size align = .ok data) :
    (data.length : Int) = size := by
  obtain ⟨-, ⟨empty, rfl⟩ | ⟨-, a, hits, rfl⟩⟩ := load_eq_ok_iff.1 h
  · exact empty.symm
  · exact Slice.length_read a.contents nonneg hits.inside

/-! ## Fresh allocations -/

namespace Made

/-- A new allocation has uninitialised bytes only. -/
theorem eq_uninit_of_load (made : m.Made size align kind p m' a)
    (same : q.provenance = p.provenance) {n b : Int} (h : m'.load q n b = .ok data)
    {x : AbsByte} (hx : x ∈ data) : x = .uninit := by
  obtain ⟨-, ⟨-, rfl⟩ | ⟨-, found, hits, rfl⟩⟩ := load_eq_ok_iff.1 h
  · cases hx
  · obtain ⟨id, named, there⟩ := hits.named
    have hid : a.id = id := by
      rw [same, made.base, Allocation.base] at named
      exact Option.some.inj named
    rw [← hid, made.allocation_new] at there
    obtain rfl := Except.ok.inj there
    have mem := Slice.mem_of_mem_read hx
    rw [made.contents] at mem
    exact List.eq_of_mem_replicate mem

/-- A new allocation can be read where it lies. -/
theorem load_eq_blank (made : m.Made size align kind p m' a)
    (h : m.allocate size align kind = (.ok p, m')) :
    m'.load p size align = .ok (AbsByte.blank size) := by
  obtain ⟨placed, -⟩ := made.placed h
  obtain ⟨power, shift⟩ := placed.power
  have nonzero : a.align ≠ 0 := by
    have := one_shiftLeft_pos power
    omega
  have aligned : isAligned p.addr align = .ok true := by
    rw [← made.align, isAligned_of_ne_zero nonzero, made.base]
    exact congrArg Except.ok (beq_iff_eq.2 (Int.emod_eq_zero_of_dvd placed.aligned))
  refine load_eq_ok_iff.2 ⟨aligned, ?_⟩
  by_cases empty : size = 0
  · exact .inl ⟨empty, by rw [empty]; rfl⟩
  · have positive := placed.positive
    refine .inr ⟨empty, a, ⟨⟨a.id, by rw [made.base]; rfl, made.allocation_new⟩, made.live, ?_, ?_, ?_⟩, ?_⟩
    · rw [made.base]
      exact Int.ne_of_gt positive
    · rw [made.base]
      exact Int.le_refl _
    · rw [made.base, Allocation.stop, made.size]
      exact Int.le_refl _
    · have whole : Slice.read a.contents 0 (0 + size) = a.contents :=
        Slice.read_of_length_eq made.size
      rw [made.base, Allocation.base, Int.sub_self, whole, made.contents]

end Made

/-! ## Stores -/

/-- What a load yields once data was stored at a pointer, in terms of what it yielded before. -/
structure Overwritten (m : Memory) (p : Pointer) (data : List AbsByte) (m' : Memory) : Prop where
  /-- The same loads succeed. -/
  granted : ∀ q size align, 0 ≤ size →
    ((∃ new, m'.load q size align = .ok new) ↔ ∃ old, m.load q size align = .ok old)
  /-- They yield as many bytes as they were asked for, and each of them is the one that was stored
  there through the same provenance, or else the old one. -/
  bytes : ∀ q size align old new, 0 ≤ size →
    m.load q size align = .ok old → m'.load q size align = .ok new →
      (old.length : Int) = size ∧ (new.length : Int) = size ∧ ∀ i : Nat, (i : Int) < size →
        new[i]? =
          if q.provenance = p.provenance ∧ p.addr ≤ q.addr + i ∧ q.addr + i < p.addr + data.length
          then data[(q.addr + i - p.addr).toNat]? else old[i]?
  /-- No other allocation changes. -/
  others : ∀ k : Nat, p.provenance ≠ some ⟨k⟩ → m'.allocations[k]? = m.allocations[k]?

/-- A store of at least one byte changes the bytes of one allocation, the one that it hits. -/
theorem exists_of_store (numbered : m.Numbered) (h : m.store p data align = .ok m')
    (nonempty : data ≠ []) :
    ∃ (k : Nat) (a : Allocation), p.provenance = some ⟨k⟩ ∧ m.allocations[k]? = some a ∧
      m.Hits p data.length a ∧ m'.allocations[k]? =
        some { a with contents := Slice.overlay a.contents (p.addr - a.addr) data } ∧
      ∀ l : Nat, l ≠ k → m'.allocations[l]? = m.allocations[l]? := by
  obtain ⟨-, ⟨empty, -⟩ | ⟨-, a, hits, rfl⟩⟩ := store_eq_ok_iff.1 h
  · exact absurd empty nonempty
  obtain ⟨id, named, found⟩ := hits.named
  rw [numbered.id_eq found]
  obtain ⟨k, rfl, there⟩ := exists_getElem?_of_allocation found
  refine ⟨k, a, named, there, hits, ?_, fun l other => ?_⟩
  · rw [allocations_modify, if_pos (by simp), there, Option.map_some]
  · rw [allocations_modify, if_neg (by simpa using Ne.symm other)]

/-- One byte of a load from an allocation over which data was laid. -/
theorem getElem?_read_overlay (hp : m.Hits p data.length a) (hq : m.Hits q size a)
    (nonneg : 0 ≤ size) {i : Nat} (within : (i : Int) < size) :
    (Slice.read (Slice.overlay a.contents (p.addr - a.addr) data) (q.addr - a.addr)
        (q.addr - a.addr + size))[i]? =
      if p.addr ≤ q.addr + i ∧ q.addr + i < p.addr + data.length
      then data[(q.addr + i - p.addr).toNat]?
      else (Slice.read a.contents (q.addr - a.addr) (q.addr - a.addr + size))[i]? := by
  let piece : Piece AbsByte := ⟨p.addr - a.addr, data⟩
  have same : (Slice.overlay a.contents (p.addr - a.addr) data).length = a.contents.length :=
    Slice.length_overlay_of_inside a.contents piece hp.inside
  have start := hq.start
  rw [Slice.getElem?_read _ nonneg (same ▸ hq.inside), Slice.getElem?_read _ nonneg hq.inside,
    if_pos within, if_pos within, Slice.getElem?_overlay a.contents piece hp.inside]
  simp only [piece, Piece.extent, Chunk.mem_iff]
  by_cases stored : p.addr ≤ q.addr + i ∧ q.addr + i < p.addr + data.length
  · rw [if_pos stored, if_pos (by omega)]
    congr 1
    omega
  · rw [if_neg stored, if_neg (by omega)]

/-- A load finds the same bytes if the allocation that its pointer names is the same. -/
theorem eq_of_load_eq_ok
    (same : ∀ k : Nat, q.provenance = some ⟨k⟩ → m'.allocations[k]? = m.allocations[k]?)
    (before : m.load q size align = .ok old) (later : m'.load q size align = .ok new) :
    new = old := by
  obtain ⟨-, ⟨empty, rfl⟩ | ⟨nonempty, a, hits, rfl⟩⟩ := load_eq_ok_iff.1 before
  · obtain ⟨-, ⟨-, rfl⟩ | ⟨nonempty, -⟩⟩ := load_eq_ok_iff.1 later
    · rfl
    · exact absurd empty nonempty
  · obtain ⟨-, ⟨empty, -⟩ | ⟨-, b, hits', rfl⟩⟩ := load_eq_ok_iff.1 later
    · exact absurd empty nonempty
    · obtain ⟨k, named, ha⟩ := hits.exists_number
      obtain ⟨l, named', hb⟩ := hits'.exists_number
      obtain rfl := number_unique named named'
      rw [same k named, ha] at hb
      obtain rfl := Option.some.inj hb
      rfl

theorem overwritten_of_store (numbered : m.Numbered) (h : m.store p data align = .ok m') :
    m.Overwritten p data m' where
  granted q size align _ := by
    have kept := outline_of_store numbered h
    exact ⟨fun ⟨_, loaded⟩ => exists_load_of_outline_eq kept loaded,
      fun ⟨_, loaded⟩ => exists_load_of_outline_eq kept.symm loaded⟩
  bytes q size align old new nonneg before later := by
    refine ⟨length_of_load nonneg before, length_of_load nonneg later, fun i within => ?_⟩
    by_cases nonempty : data = []
    · obtain ⟨-, ⟨-, rfl⟩ | ⟨filled, -⟩⟩ := store_eq_ok_iff.1 h
      · obtain rfl := Except.ok.inj (later.symm.trans before)
        rw [nonempty, List.length_nil, if_neg (by omega)]
      · exact absurd nonempty filled
    · obtain ⟨k, a, named, ha, hits, changed, others⟩ := exists_of_store numbered h nonempty
      by_cases same : q.provenance = p.provenance
      · simp only [same, true_and]
        obtain ⟨-, ⟨empty, -⟩ | ⟨-, b, hitsb, rfl⟩⟩ := load_eq_ok_iff.1 before
        · omega
        obtain ⟨-, ⟨empty, -⟩ | ⟨-, c, hitsc, rfl⟩⟩ := load_eq_ok_iff.1 later
        · omega
        -- Both loads hit the allocation that was stored to.
        obtain ⟨l, namedb, hb⟩ := hitsb.exists_number
        obtain rfl := number_unique named (same ▸ namedb)
        obtain rfl := Option.some.inj (ha.symm.trans hb)
        obtain ⟨l, namedc, hc⟩ := hitsc.exists_number
        obtain rfl := number_unique named (same ▸ namedc)
        obtain rfl := Option.some.inj (changed.symm.trans hc)
        exact getElem?_read_overlay hits hitsb nonneg within
      · rw [if_neg fun both => same both.1, eq_of_load_eq_ok _ before later]
        intro l namedq
        refine others l fun number => same ?_
        rw [namedq, named, number]
  others k other := by
    by_cases nonempty : data = []
    · obtain ⟨-, ⟨-, rfl⟩ | ⟨filled, -⟩⟩ := store_eq_ok_iff.1 h
      · rfl
      · exact absurd nonempty filled
    · obtain ⟨l, a, named, -, -, -, others⟩ := exists_of_store numbered h nonempty
      refine others k fun number => other ?_
      rw [named, number]

/-- What was stored is what is found. -/
theorem load_of_store (numbered : m.Numbered) (h : m.store p data align = .ok m') :
    m'.load p data.length align = .ok data := by
  have written := overwritten_of_store numbered h
  obtain ⟨old, before⟩ : ∃ old, m.load p data.length align = .ok old := by
    obtain ⟨aligned, ⟨rfl, -⟩ | ⟨nonempty, a, hits, -⟩⟩ := store_eq_ok_iff.1 h
    · exact ⟨[], load_eq_ok_iff.2 ⟨aligned, .inl ⟨rfl, rfl⟩⟩⟩
    · have filled : ((data.length : Nat) : Int) ≠ 0 := by
        simpa [List.length_eq_zero_iff] using nonempty
      exact ⟨_, load_eq_ok_iff.2 ⟨aligned, .inr ⟨filled, a, hits, rfl⟩⟩⟩
  have nonneg : (0 : Int) ≤ data.length := Int.natCast_nonneg _
  obtain ⟨new, later⟩ := (written.granted p data.length align nonneg).2 ⟨old, before⟩
  obtain ⟨-, length, bytes⟩ := written.bytes p _ align old new nonneg before later
  rw [later, Except.ok.injEq]
  apply List.ext_getElem?
  intro i
  by_cases within : (i : Int) < data.length
  · rw [bytes i within, if_pos ⟨rfl, by omega, by omega⟩]
    congr 1
    omega
  · rw [List.getElem?_eq_none (by omega), List.getElem?_eq_none (by omega)]

/-! ## Every call -/

/-- What comes of a call, but for what it yields. -/
def outcome (m : Memory) : Call → Except Fault Unit
  | .allocate size align kind => (m.allocate size align kind).1.map fun _ => ()
  | .deallocate p size align kind => (m.deallocate p size align kind).map fun _ => ()
  | .load p size align => (m.load p size align).map fun _ => ()
  | .store p data align => (m.store p data align).map fun _ => ()
  | .dereferenceable p size align => m.dereferenceable p size align
  | .retag p ty => (m.retag p ty).map fun _ => ()

theorem exists_of_map_eq_error {α : Type} {x : Except Fault α} {f : Fault}
    (h : (x.map fun _ => ()) = .error f) : x = .error f := by
  cases x with
  | error e => exact congrArg Except.error (Except.error.inj h)
  | ok a => cases h

/-- A call that fails leaves all allocations as they were. -/
theorem allocations_after_of_error {c : Call} {f : Fault} (h : m.outcome c = .error f) :
    (m.after c).allocations = m.allocations := by
  cases c with
  | allocate size align kind =>
      have failed := exists_of_map_eq_error h
      obtain ⟨same, -⟩ | ⟨c, -, same, -⟩ := allocate_eq_error (Prod.ext failed rfl)
      · simp [after, same]
      · simp [after, same]
  | deallocate p size align kind =>
      have failed := exists_of_map_eq_error h
      rw [after, failed, orSame]
  | store p data align =>
      have failed := exists_of_map_eq_error h
      rw [after, failed, orSame]
  | load p size align => rfl
  | dereferenceable p size align => rfl
  | retag p ty => rfl

/-- Allocating changes no allocation that there is. -/
theorem getElem?_after_allocate {k : Nat} (found : m.allocations[k]? = some a) :
    (m.after (.allocate size align kind)).allocations[k]? = some a := by
  rcases h : m.allocate size align kind with ⟨answer, m'⟩
  cases answer with
  | error f =>
      have failed : m.outcome (.allocate size align kind) = .error f := by rw [outcome, h]; rfl
      rw [allocations_after_of_error failed, found]
  | ok p =>
      obtain ⟨b, made⟩ := made_of_allocate h
      rw [after, h, made.getElem?_of_lt (List.getElem?_eq_some_iff.1 found).1, found]

/-- Freeing an allocation changes no byte. -/
theorem exists_after_deallocate {k : Nat} (found : m.allocations[k]? = some a) :
    ∃ b, (m.after (.deallocate p size align kind)).allocations[k]? = some b ∧
      b.contents = a.contents := by
  cases h : m.deallocate p size align kind with
  | error f =>
      rw [after, h, orSame]
      exact ⟨a, found, rfl⟩
  | ok m' =>
      obtain ⟨id, freed, -, -, -, -, -, -, -, rfl⟩ := deallocate_eq_ok_iff.1 h
      rw [after, h, orSame, allocations_modify, found]
      split
      · exact ⟨_, rfl, rfl⟩
      · exact ⟨_, rfl, rfl⟩

/-- Memory as a store of bytes for each allocation. -/
structure Remembers (m : Memory) : Prop where
  /-- Nothing but uninitialised bytes is found in a new allocation. -/
  fresh : ∀ size align kind p m', m.allocate size align kind = (.ok p, m') →
    m'.load p size align = .ok (AbsByte.blank size) ∧
    ∀ q n b data, q.provenance = p.provenance → m'.load q n b = .ok data →
      ∀ x ∈ data, x = AbsByte.uninit
  /-- A store is found again, and what is beside it stays. -/
  stored : ∀ p data align m', m.store p data align = .ok m' →
    m.Overwritten p data m' ∧ m'.load p data.length align = .ok data
  /-- Looking changes nothing. -/
  looked : ∀ p size align ty, m.after (.load p size align) = m ∧
    m.after (.dereferenceable p size align) = m ∧ m.after (.retag p ty) = m
  /-- Allocating and freeing change no byte. -/
  contents : ∀ size align kind p (k : Nat) (a : Allocation), m.allocations[k]? = some a →
    (∃ b, (m.after (.allocate size align kind)).allocations[k]? = some b ∧
      b.contents = a.contents) ∧
    ∃ b, (m.after (.deallocate p size align kind)).allocations[k]? = some b ∧
      b.contents = a.contents
  /-- What fails changes no allocation. -/
  failed : ∀ c f, m.outcome c = .error f → (m.after c).allocations = m.allocations

/-- After every sequence of calls memory is a store of bytes for each allocation. -/
theorem remembers_afterAll_fresh (target : Target) (chooser : Chooser) (calls : List Call) :
    ((fresh target chooser).afterAll calls).Remembers where
  fresh size align kind p m' made := by
    obtain ⟨a, new⟩ := made_of_allocate made
    exact ⟨new.load_eq_blank made, fun q n b data same loaded x hx =>
      new.eq_uninit_of_load same loaded hx⟩
  stored p data align m' h := by
    have numbered := ((Laid.fresh target chooser).afterAll calls).numbered
    exact ⟨overwritten_of_store numbered h, load_of_store numbered h⟩
  looked _ _ _ _ := ⟨rfl, rfl, rfl⟩
  contents _ _ _ _ _ a found := ⟨⟨a, getElem?_after_allocate found, rfl⟩,
    exists_after_deallocate found⟩
  failed _ _ h := allocations_after_of_error h

/-- Two bytes stored over the middle of four that nothing was stored to. -/
example : ∃ m', ((fresh .standard (Solver.chooser ⟨.lowest, []⟩)).afterAll
    [.allocate 4 4 .heap]).store ⟨5, some ⟨0⟩⟩ [.init 1 none, .init 2 none] 1 = .ok m' ∧
      m'.load ⟨4, some ⟨0⟩⟩ 4 4 = .ok [.uninit, .init 1 none, .init 2 none, .uninit] :=
  ⟨_, rfl, rfl⟩

end Memory

end AbstractMachine
