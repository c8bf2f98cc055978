/-
# AbstractMachine.Memory — allocations

Memory is the list of all allocations ever made, in the order they were made. An allocation is never
removed and its number never given away again: freeing it clears its `live` flag and nothing else.
So a pointer to dead memory is told from a pointer to whatever lies at the same address by now.

`checkPtr` is the single place where an access is judged: alignment first, then size zero, which
needs nothing more, and then address, provenance, liveness and bounds. Loads and stores act on the
allocation that it returns. Operations that fail leave memory as it is. The one trace that a failed
allocation can leave is that the chooser was asked.
-/
import AbstractMachine.Choice.Address
import AbstractMachine.Layout
import AbstractMachine.Representation.WellFormed
import AbstractMachine.Slice

namespace AbstractMachine

/-- A contiguous run of bytes with an identity. -/
structure Allocation where
  id : AllocId
  contents : List AbsByte
  addr : Int
  align : Int
  kind : AllocKind
  live : Bool := true

namespace Allocation

/-- The number of bytes. -/
def size (a : Allocation) : Int := a.contents.length

/-- One past the last byte. -/
def stop (a : Allocation) : Int := a.addr + a.size

/-- The addresses that an allocation takes up. -/
def range (a : Allocation) : AddressRange := ⟨a.addr, a.stop⟩

/-- The pointer to the first byte. -/
def base (a : Allocation) : Pointer := ⟨a.addr, some a.id⟩

end Allocation

/-- All allocations ever made, and the chooser that places them. -/
structure Memory where
  target : Target
  chooser : Chooser
  allocations : List Allocation := []
  /-- What the chooser was asked, the last question first. -/
  asked : List AddressConstraints := []

namespace Memory

/-- The allocations that have not been freed. -/
def live (m : Memory) : List Allocation :=
  m.allocations.filter (·.live)

/-- The allocation that an identity names. -/
def allocation (m : Memory) (id : AllocId) : Except Fault Allocation :=
  if 0 ≤ id.index then
    match m.allocations[id.index.toNat]? with
    | some a => .ok a
    | none => .error (.defect (.notAnAllocation id))
  else .error (.defect (.notAnAllocation id))

/-- Change the allocation that an identity names. -/
def modify (m : Memory) (id : AllocId) (change : Allocation → Allocation) : Memory :=
  { m with allocations := m.allocations.modify id.index.toNat change }

/-! ## Allocation -/

/-- What the address of a new allocation has to satisfy now, if there may be such an allocation at
all. -/
def constraints (m : Memory) (size align : Int) : Except Fault AddressConstraints := do
  require (← m.target.validSize size) (.undefined (.allocationSize size))
  require (isPowerOfTwo align) (.undefined (.allocationAlign align))
  return { size, align, limit := ← m.target.addrLimit, occupied := m.live.map Allocation.range }

/-- Put a new allocation of uninitialised bytes at an address. -/
def addAllocation (m : Memory) (size align addr : Int) (kind : AllocKind) : Memory :=
  let id : AllocId := ⟨m.allocations.length⟩
  { m with allocations := m.allocations ++
      [{ id, contents := AbsByte.blank size, addr, align, kind }] }

/-- Ask the chooser, and note the question. -/
def choose (m : Memory) (c : AddressConstraints) : Except Fault Int × Memory :=
  (m.chooser m.asked c, { m with asked := c :: m.asked })

/-- Allocate uninitialised bytes at an address of the chooser's choice. -/
def allocate (m : Memory) (size align : Int) (kind : AllocKind) : Except Fault Pointer × Memory :=
  match m.constraints size align with
  | .error f => (.error f, m)
  | .ok c =>
      match m.choose c with
      | (.error f, m) => (.error f, m)
      | (.ok addr, m) =>
          match c.admits addr with
          | .error f => (.error f, m)
          | .ok false => (.error (.defect (.inadmissibleAddress addr)), m)
          | .ok true =>
              (.ok ⟨addr, some ⟨m.allocations.length⟩⟩, m.addAllocation size align addr kind)

/-- Free the allocation that a pointer points to the start of. Size, alignment and kind have to be
those it was made with. -/
def deallocate (m : Memory) (p : Pointer) (size align : Int) (kind : AllocKind) :
    Except Fault Memory :=
  match p.provenance with
  | none => .error (.undefined .freeWithoutProvenance)
  | some id => do
      let a ← m.allocation id
      require a.live (.undefined .doubleFree)
      require (a.kind == kind) (.undefined (.freeOfKind a.kind kind))
      require (p.addr == a.addr) (.undefined .freeNotAtStart)
      require (size == a.size) (.undefined .freeWithSize)
      require (align == a.align) (.undefined .freeWithAlign)
      return m.modify id fun a => { a with live := false }

/-! ## Access -/

/-- Judge an access of a size and alignment; yields the allocation that it hits, or nothing if the
size is zero. -/
def checkPtr (m : Memory) (p : Pointer) (size align : Int) : Except Fault (Option Allocation) := do
  require (← isAligned p.addr align) (.undefined .misaligned)
  if size = 0 then return none
  require (p.addr != 0) (.undefined .nullAccess)
  match p.provenance with
  | none => throw (.undefined .accessWithoutProvenance)
  | some id => do
      let a ← m.allocation id
      require a.live (.undefined .deadAccess)
      require (a.addr ≤ p.addr && p.addr + size ≤ a.stop) (.undefined .outOfBounds)
      return some a

/-- The bytes at a pointer. -/
def load (m : Memory) (p : Pointer) (size align : Int) : Except Fault (List AbsByte) := do
  match ← m.checkPtr p size align with
  | none => return []
  | some a => return Slice.read a.contents (p.addr - a.addr) (p.addr - a.addr + size)

/-- Put bytes at a pointer. -/
def store (m : Memory) (p : Pointer) (data : List AbsByte) (align : Int) : Except Fault Memory := do
  match ← m.checkPtr p data.length align with
  | none => return m
  | some a => return m.modify a.id fun a =>
      { a with contents := Slice.overlay a.contents (p.addr - a.addr) data }

/-- Fail unless an access of a size and alignment would be allowed. -/
def dereferenceable (m : Memory) (p : Pointer) (size align : Int) : Except Fault Unit := do
  let _ ← m.checkPtr p size align

/-- Retag a pointer: what it has to point to must be there. The pointer stays as it is. -/
def retag (m : Memory) (p : Pointer) (ty : PtrTy) : Except Fault Pointer :=
  match ty.safePointee with
  | none => .ok p
  | some pointee => do
      m.dereferenceable p pointee.size pointee.align
      return p

/-- Whether an address lies in the live allocation that an identity names; the address one past its
end counts if `onePastEnd`. -/
def covers (m : Memory) (id : AllocId) (addr : Int) (onePastEnd : Bool) : Except Fault Bool := do
  let a ← m.allocation id
  return a.live && a.addr ≤ addr && (if onePastEnd then addr ≤ a.stop else addr < a.stop)

/-- Move a pointer by a number of bytes without leaving its allocation: all bytes between the old
address and the new one must be there. -/
def offsetInBounds (m : Memory) (p : Pointer) (offset : Int) : Except Fault Pointer := do
  require (← m.target.isizeInBounds offset) (.undefined .offsetTooLarge)
  let addr := p.addr + offset
  require (← m.target.addrInBounds addr) (.undefined .offsetOverflow)
  let low := min p.addr addr
  let high := max p.addr addr
  m.dereferenceable { p with addr := low } (high - low) 1
  return { p with addr }

/-! ## What the operations look at and change -/

theorem allocation_eq_ok_iff {m : Memory} {id : AllocId} {a : Allocation} :
    m.allocation id = .ok a ↔ 0 ≤ id.index ∧ m.allocations[id.index.toNat]? = some a := by
  unfold allocation
  split
  · split <;> simp_all
  · simp; omega

/-- A change to one allocation leaves all others as they are. -/
theorem allocations_modify (m : Memory) (id : AllocId) (f : Allocation → Allocation) (k : Nat) :
    (m.modify id f).allocations[k]? =
      if id.index.toNat = k then (m.allocations[k]?).map f else m.allocations[k]? := by
  rw [modify, List.getElem?_modify]
  cases m.allocations[k]? <;> by_cases h : id.index.toNat = k <;> simp [h]

theorem length_allocations_modify (m : Memory) (id : AllocId) (f : Allocation → Allocation) :
    (m.modify id f).allocations.length = m.allocations.length := by
  simp [modify]

/-- An access of size zero hits no allocation, wherever it is. -/
theorem checkPtr_zero {m : Memory} {p : Pointer} {align : Int} (h : align ≠ 0)
    (ha : p.addr % align = 0) : m.checkPtr p 0 align = .ok none := by
  simp [checkPtr, isAligned_of_ne_zero h, ha, bind, Except.bind, pure, Except.pure]

end Memory

end AbstractMachine
