/-
# AbstractMachine.Store — memory, casts and the journal of both

The store is all of a machine's state that a program can reach through pointers. Its operations are
those of memory and of the cast model; what succeeds is noted in the journal.
-/
import AbstractMachine.Action
import AbstractMachine.Casts
import AbstractMachine.Event
import AbstractMachine.Fault.Message
import AbstractMachine.Memory.Typed

namespace AbstractMachine

/-- Memory, what has been exposed of it, and what has been noted about both. -/
structure Store where
  memory : Memory
  casts : Casts := {}
  journal : Journal := {}

namespace Store

/-- Note an event. -/
def note (e : Event) : Action Store Unit :=
  modify fun s => { s with journal := s.journal.note e }

/-- A question to memory. -/
def ask {α : Type} (f : Memory → Except Fault α) : Action Store α :=
  Action.ask fun s => f s.memory

/-- A change of memory. -/
def change (f : Memory → Except Fault Memory) : Action Store Unit :=
  Action.zoom Store.memory (fun m s => { s with memory := m }) (Action.change f)

/-- Allocate uninitialised bytes. -/
def allocate (size align : Int) (kind : AllocKind) : Action Store Pointer := do
  let p ← Action.zoom Store.memory (fun m s => { s with memory := m })
    (Action.ofStep fun m => m.allocate size align kind)
  if let some id := p.provenance then
    note (.allocated id size p.addr align)
  return p

/-- Free an allocation. -/
def deallocate (p : Pointer) (size align : Int) (kind : AllocKind) : Action Store Unit := do
  change fun m => m.deallocate p size align kind
  if let some id := p.provenance then
    note (.freed id)

/-- The bytes at a pointer. -/
def load (p : Pointer) (size align : Int) : Action Store (List AbsByte) :=
  ask fun m => m.load p size align

/-- Put bytes at a pointer. -/
def store (p : Pointer) (data : List AbsByte) (align : Int) : Action Store Unit :=
  change fun m => m.store p data align

/-- The value at a pointer. -/
def typedLoad (p : Pointer) (place : PlaceTy) : Action Store Value :=
  ask fun m => m.typedLoad p place

/-- Put a value at a pointer. -/
def typedStore (p : Pointer) (v : Value) (place : PlaceTy) : Action Store Unit :=
  change fun m => m.typedStore p v place

/-- Make the bytes of a place uninitialised. -/
def deinit (p : Pointer) (place : PlaceTy) : Action Store Unit :=
  change fun m => m.deinit p place

/-- The address of a pointer, whose provenance is exposed. -/
def expose (p : Pointer) : Action Store Int := do
  if let some id := (← get).casts.unexposed? p then
    modify fun s => { s with casts := s.casts.expose p }
    note (.exposed id)
  return p.addr

/-- A pointer to an address, with an exposed provenance that passes the tests, or none. -/
def fromAddr (addr : Int) (fits : Memory → AllocId → Except Fault Bool)
    (contains : Option (Memory → AllocId → Except Fault Bool)) : Action Store Pointer := do
  let p ← Action.ofStep fun s =>
    let (answer, casts) := s.casts.fromAddr addr (fits s.memory) (contains.map (· s.memory))
    (answer, { s with casts })
  note (.castToPointer p)
  return p

/-- A pointer to an address, with the provenance of an exposed allocation that contains it, else of
one that ends there, if the standard predictor is asked. -/
def fromExposed (addr : Int) : Action Store Pointer :=
  fromAddr addr (fun m id => m.covers id addr true) (some fun m id => m.covers id addr false)

/-- Forget all that was exposed. -/
def forgetExposed : Action Store Unit :=
  modify fun s => { s with casts := s.casts.reset }

end Store

/-! ## Memory as text -/

/-- An allocation: `Allocation(alloc0, 0x4..0x8, stack, live)`. -/
def Allocation.text (a : Allocation) : String :=
  "Allocation(" ++ Text.commaSeparated [a.id.text, Text.hex a.addr ++ ".." ++ Text.hex a.stop,
    a.kind.text, if a.live then "live" else "dead"] ++ ")"

/-- Memory: `BasicMemory(1 live of 2)`. -/
def Memory.text (m : Memory) : String :=
  "BasicMemory(" ++ toString m.live.length ++ " live of " ++ toString m.allocations.length ++ ")"

end AbstractMachine
