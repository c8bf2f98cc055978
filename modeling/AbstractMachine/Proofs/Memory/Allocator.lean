/-
# AbstractMachine.Proofs.Memory.Allocator — what every sequence of operations leaves of memory

Memory is used through six operations. Nothing is assumed about the order in which they are called
or about what they are called with, and nothing about the chooser: it may answer with any address,
or not at all. Calls may fail; a call that does leaves memory as it was, up to what the chooser was
asked.

What holds of memory after every such sequence is that it is `Laid` out: allocations are numbered in
the order in which they were made, each of them lies properly in the address space, and no two live
ones overlap. One call keeps this (`Laid.after`), so by induction every sequence does. The same step
shows that an allocation is, for ever, as long, as aligned and of the kind that was asked for when
it was made, and stays where it was put.
-/
import Mathlib.Data.List.Induction
import AbstractMachine.Proofs.Memory.Outline

namespace AbstractMachine

/-! ## Calls -/

namespace Memory

/-- A call of an operation of memory. -/
inductive Call where
  | allocate (size align : Int) (kind : AllocKind)
  | deallocate (p : Pointer) (size align : Int) (kind : AllocKind)
  | load (p : Pointer) (size align : Int)
  | store (p : Pointer) (data : List AbsByte) (align : Int)
  | dereferenceable (p : Pointer) (size align : Int)
  | retag (p : Pointer) (ty : PtrTy)

/-- What is left of memory by a change that may fail. -/
def orSame (m : Memory) : Except Fault Memory → Memory
  | .ok m' => m'
  | .error _ => m

/-- Memory after a call, whether it fails or not. -/
def after (m : Memory) : Call → Memory
  | .allocate size align kind => (m.allocate size align kind).2
  | .deallocate p size align kind => m.orSame (m.deallocate p size align kind)
  | .store p data align => m.orSame (m.store p data align)
  | .load _ _ _ => m
  | .dereferenceable _ _ _ => m
  | .retag _ _ => m

/-- Memory after calls, from first to last. -/
def afterAll (m : Memory) (calls : List Call) : Memory :=
  calls.foldl after m

/-- Memory in which nothing has been allocated. -/
def fresh (target : Target) (chooser : Chooser) : Memory :=
  { target, chooser }

theorem afterAll_concat (m : Memory) (calls : List Call) (c : Call) :
    m.afterAll (calls ++ [c]) = (m.afterAll calls).after c := by
  simp [afterAll]

end Memory

/-! ## Allocations that go on -/

/-- The second allocation is the first one later on, perhaps with other bytes and perhaps freed. -/
structure Allocation.Continues (a b : Allocation) : Prop where
  id : b.id = a.id
  addr : b.addr = a.addr
  align : b.align = a.align
  kind : b.kind = a.kind
  size : b.size = a.size
  live : b.live = true → a.live = true

namespace Allocation.Continues

variable {a b : Allocation}

theorem refl (a : Allocation) : a.Continues a :=
  ⟨rfl, rfl, rfl, rfl, rfl, fun h => h⟩

theorem of_outline_eq (h : a.outline = b.outline) : a.Continues b := by
  obtain ⟨id, addr, align, kind, live, size⟩ := outline_eq_iff.1 h
  exact ⟨id.symm, addr.symm, align.symm, kind.symm, size.symm, fun alive => live.trans alive⟩

theorem freed (a : Allocation) : a.Continues { a with live := false } :=
  ⟨rfl, rfl, rfl, rfl, rfl, nofun⟩

theorem stop (h : a.Continues b) : b.stop = a.stop := by
  rw [Allocation.stop, Allocation.stop, h.addr, h.size]

end Allocation.Continues

/-! ## The invariant -/

/-- An allocation lies properly in the address space of a target. -/
structure Allocation.Placed (target : Target) (a : Allocation) : Prop where
  positive : 0 < a.addr
  power : ∃ k : Nat, a.align = (1 : Int) <<< k
  aligned : a.align ∣ a.addr
  nonneg : 0 ≤ a.size
  bounded : ∃ top, (IntTy.isize target).max = .ok top ∧ a.size ≤ top
  below : ∃ limit, target.addrLimit = .ok limit ∧ a.stop < limit

theorem Allocation.Placed.continues {target : Target} {a b : Allocation} (h : a.Placed target)
    (continues : a.Continues b) : b.Placed target where
  positive := continues.addr ▸ h.positive
  power := continues.align ▸ h.power
  aligned := by
    rw [continues.align, continues.addr]
    exact h.aligned
  nonneg := continues.size ▸ h.nonneg
  bounded := continues.size ▸ h.bounded
  below := continues.stop ▸ h.below

/-- Where there is room for an allocation, pointers have at least one byte. -/
theorem Allocation.Placed.one_le_ptrSize {target : Target} {a : Allocation}
    (h : a.Placed target) : 1 ≤ target.ptrSize := by
  obtain ⟨limit, hlimit, below⟩ := h.below
  have positive := h.positive
  have nonneg := h.nonneg
  rw [Allocation.stop] at below
  by_contra small
  by_cases negative : target.ptrBits < 0
  · simp [Target.addrLimit, shiftedOne, negative] at hlimit
  · have zero : target.ptrBits = 0 := by
      rw [Target.ptrBits] at negative ⊢
      omega
    rw [Target.addrLimit, zero] at hlimit
    obtain rfl := Except.ok.inj hlimit
    simp at below
    omega

/-- An allocation lies below the limit of addresses. -/
theorem Allocation.Placed.stop_lt_limit {target : Target} {a : Allocation}
    (h : a.Placed target) : a.stop < target.limit := by
  obtain ⟨limit, hlimit, below⟩ := h.below
  rw [Target.addrLimit_eq h.one_le_ptrSize, Except.ok.injEq] at hlimit
  rw [hlimit]
  exact below

/-- One of two allocations ends before the other begins. -/
def Allocation.Apart (a b : Allocation) : Prop :=
  a.stop ≤ b.addr ∨ b.stop ≤ a.addr

/-- How allocations lie in memory, at any time. -/
structure Memory.Laid (m : Memory) : Prop where
  numbered : m.Numbered
  placed : ∀ a ∈ m.allocations, a.Placed m.target
  apart : ∀ (i j : Nat) (a b : Allocation), i ≠ j → m.allocations[i]? = some a →
    m.allocations[j]? = some b → a.live = true → b.live = true → a.Apart b

namespace Memory

/-- What a call does to allocations: those that there were go on, and there may be a new one, which
is what the call asked for. -/
inductive Passes (m : Memory) (c : Call) (k : Nat) (b : Allocation) : Prop where
  | old {a : Allocation} (found : m.allocations[k]? = some a) (continues : a.Continues b)
  | new (call : c = .allocate b.size b.align b.kind) (number : k = m.allocations.length)
      (id : b.id = ⟨k⟩) (placed : b.Placed m.target)
      (apart : ∀ a ∈ m.allocations, a.live = true → a.Apart b)
      (answer : (m.allocate b.size b.align b.kind).1 = .ok ⟨b.addr, some ⟨k⟩⟩)

variable {m m' : Memory} {k : Nat} {b : Allocation}

/-- A new allocation lies where the chooser put it, which was checked. -/
theorem Made.placed {size align : Int} {kind : AllocKind} {p : Pointer} {a : Allocation}
    (made : m.Made size align kind p m' a) (h : m.allocate size align kind = (.ok p, m')) :
    a.Placed m.target ∧ ∀ b ∈ m.allocations, b.live = true → b.Apart a := by
  obtain ⟨c, addr, hc, -, admitted, hp, -⟩ := allocate_eq_ok_iff.1 h
  obtain ⟨valid, power, limit, hlimit, rfl⟩ := constraints_eq_ok_iff.1 hc
  obtain ⟨positive, -, aligned, below, apart⟩ := admits_eq_ok_true_iff.1 admitted
  obtain ⟨nonneg, bounded⟩ := validSize_eq_ok_true_iff.1 valid
  simp only at aligned below apart
  have haddr : a.addr = addr := congrArg Pointer.addr (made.base.symm.trans hp)
  rw [← haddr] at positive aligned below apart
  rw [← made.align] at power aligned
  rw [← made.size] at nonneg bounded below apart
  constructor
  · exact {
      positive
      power := isPowerOfTwo_iff.1 power
      aligned := Int.dvd_of_emod_eq_zero aligned
      nonneg
      bounded
      below := ⟨limit, hlimit, below⟩ }
  · intro b hb alive
    have other := apart b.range (List.mem_map.2 ⟨b, List.mem_filter.2 ⟨hb, alive⟩, rfl⟩)
    exact other.symm

theorem passes_allocate {size align : Int} {kind : AllocKind}
    (found : (m.allocate size align kind).2.allocations[k]? = some b) :
    m.Passes (.allocate size align kind) k b := by
  rcases h : m.allocate size align kind with ⟨answer, m'⟩
  rw [h] at found
  cases answer with
  | error f =>
      have same : m'.allocations = m.allocations := by
        obtain ⟨rfl, -⟩ | ⟨c, -, rfl, -⟩ := allocate_eq_error h
        · rfl
        · rfl
      rw [same] at found
      exact .old found (.refl b)
  | ok p =>
      obtain ⟨a, made⟩ := made_of_allocate h
      obtain old | ⟨number, rfl⟩ := made.old_or_new found
      · exact .old old (.refl b)
      · obtain ⟨placed, apart⟩ := made.placed h
        refine .new ?_ number (number ▸ made.id) placed apart ?_
        · rw [made.size, made.align, made.kind]
        · rw [made.size, made.align, made.kind, h, made.base, Allocation.base, made.id, number]

/-- A change of one allocation lets it go on if what is left of it does. -/
theorem passes_modify {c : Call} {id : AllocId} {f : Allocation → Allocation}
    (h : ∀ a, m.allocations[id.index.toNat]? = some a → a.Continues (f a))
    (found : (m.modify id f).allocations[k]? = some b) : m.Passes c k b := by
  rw [allocations_modify] at found
  split at found
  · subst k
    obtain ⟨a, ha, rfl⟩ := Option.map_eq_some_iff.1 found
    exact .old ha (h a ha)
  · exact .old found (.refl b)

/-- A change that keeps the outline lets every allocation go on. -/
theorem passes_of_outline_eq {c : Call} (h : m'.outline = m.outline)
    (found : m'.allocations[k]? = some b) : m.Passes c k b := by
  obtain ⟨a, ha, outline⟩ := exists_of_outline_eq h found
  exact .old ha (.of_outline_eq outline)

/-- Every call lets allocations go on, and makes none but the one that it asks for. -/
theorem passes_after (numbered : m.Numbered) (c : Call)
    (found : (m.after c).allocations[k]? = some b) : m.Passes c k b := by
  have same (found : m.allocations[k]? = some b) : m.Passes c k b := .old found (.refl b)
  cases c with
  | allocate size align kind => exact passes_allocate found
  | deallocate p size align kind =>
      cases h : m.deallocate p size align kind with
      | error f =>
          rw [after, h] at found
          exact same found
      | ok m' =>
          rw [after, h] at found
          obtain ⟨id, a, -, -, -, -, -, -, -, rfl⟩ := deallocate_eq_ok_iff.1 h
          exact passes_modify (fun a _ => .freed a) found
  | store p data align =>
      cases h : m.store p data align with
      | error f =>
          rw [after, h] at found
          exact same found
      | ok m' =>
          rw [after, h] at found
          exact passes_of_outline_eq (outline_of_store numbered h) found
  | load p size align => exact same found
  | dereferenceable p size align => exact same found
  | retag p ty => exact same found

/-- A call changes allocations and adds to the questions, and changes nothing else. -/
theorem exists_after_eq (m : Memory) (c : Call) :
    ∃ allocations asked, m.after c = { m with allocations, asked } := by
  cases c with
  | allocate size align kind =>
      rcases h : m.allocate size align kind with ⟨answer, m'⟩
      rw [after, h]
      cases answer with
      | error f =>
          obtain ⟨rfl, -⟩ | ⟨c, -, rfl, -⟩ := allocate_eq_error h
          · exact ⟨_, _, rfl⟩
          · exact ⟨_, _, rfl⟩
      | ok p =>
          obtain ⟨c, addr, -, -, -, -, rfl⟩ := allocate_eq_ok_iff.1 h
          exact ⟨_, _, rfl⟩
  | deallocate p size align kind =>
      cases h : m.deallocate p size align kind with
      | error f =>
          rw [after, h]
          exact ⟨_, _, rfl⟩
      | ok m' =>
          obtain ⟨id, a, -, -, -, -, -, -, -, rfl⟩ := deallocate_eq_ok_iff.1 h
          rw [after, h]
          exact ⟨_, _, rfl⟩
  | store p data align =>
      cases h : m.store p data align with
      | error f =>
          rw [after, h]
          exact ⟨_, _, rfl⟩
      | ok m' =>
          rw [after, h]
          obtain ⟨-, ⟨-, rfl⟩ | ⟨-, a, -, rfl⟩⟩ := store_eq_ok_iff.1 h
          · exact ⟨_, _, rfl⟩
          · exact ⟨_, _, rfl⟩
  | load p size align => exact ⟨_, _, rfl⟩
  | dereferenceable p size align => exact ⟨_, _, rfl⟩
  | retag p ty => exact ⟨_, _, rfl⟩

theorem target_after (m : Memory) (c : Call) : (m.after c).target = m.target := by
  obtain ⟨allocations, asked, same⟩ := m.exists_after_eq c
  rw [same]

theorem chooser_after (m : Memory) (c : Call) : (m.after c).chooser = m.chooser := by
  obtain ⟨allocations, asked, same⟩ := m.exists_after_eq c
  rw [same]

/-! ## Every sequence of calls -/

theorem Laid.fresh (target : Target) (chooser : Chooser) : (fresh target chooser).Laid where
  numbered k a found := by simp [Memory.fresh] at found
  placed a ha := by simp [Memory.fresh] at ha
  apart i j a b _ found := by simp [Memory.fresh] at found

/-- A call keeps memory laid out. -/
theorem Laid.after (h : m.Laid) (c : Call) : (m.after c).Laid where
  numbered k b found := by
    cases passes_after h.numbered c found with
    | old ha continues => exact continues.id.trans (h.numbered k _ ha)
    | new _ _ id => exact id
  placed b hb := by
    obtain ⟨k, found⟩ := List.mem_iff_getElem?.1 hb
    rw [target_after]
    cases passes_after h.numbered c found with
    | old ha continues => exact (h.placed _ (List.mem_of_getElem? ha)).continues continues
    | new _ _ _ placed => exact placed
  apart i j a b distinct hi hj livea liveb := by
    -- At most one of two distinct numbers is new.
    cases passes_after h.numbered c hi with
    | @old a₀ ha ca =>
        cases passes_after h.numbered c hj with
        | @old b₀ hb cb =>
            have apart := h.apart i j a₀ b₀ distinct ha hb (ca.live livea) (cb.live liveb)
            rw [Allocation.Apart, ca.stop, ca.addr, cb.stop, cb.addr]
            exact apart
        | new _ _ _ _ apart =>
            have apart := apart a₀ (List.mem_of_getElem? ha) (ca.live livea)
            rw [Allocation.Apart, ca.stop, ca.addr]
            exact apart
    | new _ numberi _ _ apart =>
        cases passes_after h.numbered c hj with
        | @old b₀ hb cb =>
            have apart := apart b₀ (List.mem_of_getElem? hb) (cb.live liveb)
            rw [Allocation.Apart, cb.stop, cb.addr]
            exact apart.symm
        | new _ numberj => exact absurd (numberi.trans numberj.symm) distinct

/-- How memory is laid out is a question of its outline. -/
theorem Laid.of_outline_eq (h : m.Laid) (same : m'.outline = m.outline) : m'.Laid where
  numbered := numbered_of_outline_eq same h.numbered
  placed b hb := by
    obtain ⟨a, ha, outline⟩ := exists_mem_of_outline_eq same hb
    have target := target_of_outline_eq same
    exact target ▸ (h.placed a ha).continues (.of_outline_eq outline)
  apart i j a b distinct hi hj livea liveb := by
    obtain ⟨a₀, ha, outlinea⟩ := exists_of_outline_eq same hi
    obtain ⟨b₀, hb, outlineb⟩ := exists_of_outline_eq same hj
    have ca : a₀.Continues a := .of_outline_eq outlinea
    have cb : b₀.Continues b := .of_outline_eq outlineb
    have apart := h.apart i j a₀ b₀ distinct ha hb (ca.live livea) (cb.live liveb)
    rw [Allocation.Apart, ca.stop, ca.addr, cb.stop, cb.addr]
    exact apart

/-- Memory is laid out after every sequence of calls. -/
theorem Laid.afterAll (h : m.Laid) (calls : List Call) : (m.afterAll calls).Laid := by
  induction calls using List.reverseRecOn with
  | nil => exact h
  | append_singleton calls c ih =>
      rw [afterAll_concat]
      exact ih.after c

theorem target_afterAll (m : Memory) (calls : List Call) :
    (m.afterAll calls).target = m.target := by
  induction calls using List.reverseRecOn with
  | nil => rfl
  | append_singleton calls c ih => rw [afterAll_concat, target_after, ih]

/-- An allocation stems from a call that asked for it: it is as long, as aligned and of the kind that
the call said, and lies where the call put it. -/
def Stems (m : Memory) (calls : List Call) (k : Nat) (a : Allocation) : Prop :=
  ∃ before later, calls = before ++ .allocate a.size a.align a.kind :: later ∧
    (m.afterAll before).allocations.length = k ∧
    ((m.afterAll before).allocate a.size a.align a.kind).1 = .ok ⟨a.addr, some ⟨k⟩⟩

/-- Every allocation stems from a call. -/
theorem stems_of_getElem? {target : Target} {chooser : Chooser} (calls : List Call)
    (found : ((fresh target chooser).afterAll calls).allocations[k]? = some b) :
    (fresh target chooser).Stems calls k b := by
  induction calls using List.reverseRecOn generalizing b with
  | nil => simp [afterAll, Memory.fresh] at found
  | append_singleton calls c ih =>
      rw [afterAll_concat] at found
      cases passes_after ((Laid.fresh target chooser).afterAll calls).numbered c found with
      | old ha continues =>
          obtain ⟨before, later, rfl, number, answer⟩ := ih ha
          refine ⟨before, later ++ [c], ?_, number, ?_⟩
          · rw [continues.size, continues.align, continues.kind]
            simp
          · rw [continues.size, continues.align, continues.kind, continues.addr]
            exact answer
      | new call number _ _ _ answer =>
          exact ⟨calls, [], by rw [call], number.symm, answer⟩

/-- Whatever is called, and whatever the chooser answers: allocations are numbered in order, each of
them lies properly in the address space and is what it was when it was made, but for its bytes and
its life, and no two live ones overlap. -/
theorem laid_afterAll_fresh (target : Target) (chooser : Chooser) (calls : List Call) :
    ((fresh target chooser).afterAll calls).Laid ∧
      ((fresh target chooser).afterAll calls).target = target ∧
      ∀ (k : Nat) (a : Allocation),
        ((fresh target chooser).afterAll calls).allocations[k]? = some a →
          (fresh target chooser).Stems calls k a :=
  ⟨(Laid.fresh target chooser).afterAll calls, target_afterAll _ calls,
    fun _ _ found => stems_of_getElem? calls found⟩

end Memory

end AbstractMachine
