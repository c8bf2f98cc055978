/-
# AbstractMachine.Choice.Address — where an allocation may go

The allocator does not say where memory comes from: any address that fits will do, and a program is
right only if it is right for all of them. The choice is made by a *chooser*. All that the rest of
the machine knows of a chooser is that it answers with an integer or a fault, and that the answer
may depend on everything it was asked before; in particular it may be an adversary.

An address fits if it is a positive multiple of the alignment, ends below the limit, and is apart
from every occupied range. That is said twice. `admits` checks a given address and decides what the
allocator accepts. `solves` is the system of constraints that a solver is given, with the multiple
as an unknown of its own; the solver's answer is its least or greatest solution.

The least solution from a bound on is one of finitely many candidates: the alignment itself, the
first multiple at or above the bound, and the first multiple at or above the end of each occupied
range. For take the largest candidate that is not above a solution. A range that it meets cannot lie
wholly above the solution, so it ends at or below it; but then the multiple at that end is a larger
candidate. Greatest solutions are found in the same way from above.
-/
import AbstractMachine.Fault

namespace AbstractMachine

/-- The bytes from `start` up to `stop`. -/
structure AddressRange where
  start : Int
  stop : Int
  deriving DecidableEq

/-- What an address for a new allocation has to satisfy. -/
structure AddressConstraints where
  size : Int
  align : Int
  /-- One past the largest address. -/
  limit : Int
  /-- The ranges of live allocations. -/
  occupied : List AddressRange
  deriving DecidableEq

namespace AddressConstraints

/-- Whether `size` bytes at an address lie below or above a range. -/
def apart (c : AddressConstraints) (addr : Int) (r : AddressRange) : Bool :=
  addr + c.size ≤ r.start || r.stop ≤ addr

/-- Whether an address may be given to the new allocation. -/
def admits (c : AddressConstraints) (addr : Int) : Except Fault Bool :=
  if addr ≤ 0 then .ok false
  else if c.align = 0 then .error (.arithmetic .divisionByZero)
  else .ok (addr % c.align == 0 && addr + c.size < c.limit && c.occupied.all (c.apart addr))

/-! ## The solver's view -/

/-- Whether an address is the alignment times a positive integer. -/
def isSlot (c : AddressConstraints) (addr : Int) : Bool :=
  if c.align = 0 then addr == 0 else addr % c.align == 0 && 1 ≤ addr / c.align

/-- Whether an address is a solution of the constraints. -/
def solves (c : AddressConstraints) (addr : Int) : Bool :=
  c.isSlot addr && addr + c.size < c.limit && c.occupied.all (c.apart addr)

/-- Whether an address is a solution that is not below a floor, if there is one. -/
def solvesFrom (c : AddressConstraints) (floor : Option Int) (addr : Int) : Bool :=
  c.solves addr && floor.all (· ≤ addr)

/-- The least multiple of the alignment from `n` on. -/
def multipleAbove (c : AddressConstraints) (n : Int) : Int :=
  -(-n / c.align) * c.align

/-- The greatest multiple of the alignment up to `n`. -/
def multipleBelow (c : AddressConstraints) (n : Int) : Int :=
  n / c.align * c.align

/-- The least solution that is not below a floor. -/
def lowest (c : AddressConstraints) (floor : Option Int) : Option Int :=
  let bounds := floor.toList ++ c.occupied.map (·.stop)
  ((c.align :: bounds.map c.multipleAbove).filter (c.solvesFrom floor)).min?

/-- The greatest solution that is not below a floor. -/
def highest (c : AddressConstraints) (floor : Option Int) : Option Int :=
  let bounds := (c.limit - 1 - c.size) :: c.occupied.map (·.start - c.size)
  ((c.align :: bounds.map c.multipleBelow).filter (c.solvesFrom floor)).max?

theorem admits_of_pos {c : AddressConstraints} {addr : Int} (h : c.align ≠ 0) :
    c.admits addr = .ok (decide (0 < addr) && addr % c.align == 0 && addr + c.size < c.limit
      && c.occupied.all (c.apart addr)) := by
  unfold admits
  split
  · simp [show ¬0 < addr by omega]
  · simp [show 0 < addr by omega]

/-- Every least solution is a solution. -/
theorem solvesFrom_lowest {c : AddressConstraints} {floor : Option Int} {addr : Int}
    (h : c.lowest floor = some addr) : c.solvesFrom floor addr = true :=
  (List.mem_filter.1 (List.min?_mem h)).2

/-- Every greatest solution is a solution. -/
theorem solvesFrom_highest {c : AddressConstraints} {floor : Option Int} {addr : Int}
    (h : c.highest floor = some addr) : c.solvesFrom floor addr = true :=
  (List.mem_filter.1 (List.max?_mem h)).2

end AddressConstraints

/-! ## Choosers -/

/-- An address for constraints, given all constraints it was asked before, the last ones first. -/
abbrev Chooser := List AddressConstraints → AddressConstraints → Except Fault Int

/-- Answers given in advance, whatever the constraints. -/
def Chooser.scripted (answers : List (Except Fault Int)) : Chooser := fun asked _ =>
  answers[asked.length]?.getD (.error (.noChoice .exhausted))

/-- Which solution a solver settles on. -/
inductive Strategy where
  | lowest
  | highest
  /-- The least solution from a random floor on, or the least of all if there is none. -/
  | random
  deriving DecidableEq

namespace Strategy

/-- The name of a strategy. -/
def name : Strategy → String
  | lowest => "lowest"
  | highest => "highest"
  | random => "random"

/-- The strategy of a name. -/
def ofName? (s : String) : Option Strategy :=
  [lowest, highest, random].find? (·.name == s)

end Strategy

/-- A solver: a strategy, and the floors that the random one draws, over and over. -/
structure Solver where
  strategy : Strategy
  floors : List Int := []

namespace Solver

/-- The floor of the pick with this number. Where no floors are given, one is drawn from the numbers
from zero up to the limit, of which there has to be one. -/
def floor (s : Solver) (n : Nat) (c : AddressConstraints) : Except Fault Int :=
  match s.floors[n % s.floors.length]? with
  | some floor => .ok floor
  | none => if 0 < c.limit then .ok 0 else .error (.arithmetic .emptyRange)

/-- The answer to the pick with this number, and how many systems were solved for it. -/
def solve (s : Solver) (n : Nat) (c : AddressConstraints) : Except Fault (Option Int) × Nat :=
  match s.strategy with
  | .lowest => (.ok (c.lowest none), 1)
  | .highest => (.ok (c.highest none), 1)
  | .random =>
      match s.floor n c with
      | .error f => (.error f, 0)
      | .ok floor =>
          match c.lowest (some floor) with
          | some addr => (.ok (some addr), 1)
          | none => (.ok (c.lowest none), 2)

/-- The address for the pick with this number. If there is none, the fault names the size and the
alignment, however many digits they have: that there may be too many to write is looked at in
`Fault.told` only. -/
def pick (s : Solver) (n : Nat) (c : AddressConstraints) : Except Fault Int :=
  match (s.solve n c).1 with
  | .ok (some addr) => .ok addr
  | .ok none => .error (.noChoice (.noAddress c.size c.align))
  | .error f => .error f

/-- A solver as a chooser. -/
def chooser (s : Solver) : Chooser := fun asked c =>
  s.pick asked.length c

/-- A solver that has solved this many systems, as text. -/
def text (s : Solver) (queries : Nat) : String :=
  "Z3AddressChooser(" ++ s.strategy.name ++ ", queries=" ++ toString queries ++ ")"

end Solver

end AbstractMachine
