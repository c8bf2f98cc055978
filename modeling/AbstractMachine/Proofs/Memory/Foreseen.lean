/-
# AbstractMachine.Proofs.Memory.Foreseen — memory fails in foreseen ways

Memory divides by alignments and by nothing else, and asks the target for the range of its
addresses. So where pointers have at least one byte, and a place at least an alignment of one, all
that memory can answer is a result, undefined behaviour or a defect. A projection keeps an alignment
of at least one: no part of a place is aligned worse than its distance allows, and every distance is
a multiple of one.

An address is chosen by somebody else, and so is the provenance of a cast. What they fail with, they
pass on; `Foreseeable` says of them that it is nothing unforeseen.
-/
import AbstractMachine.Proofs.Foreseen
import AbstractMachine.Proofs.Layout.Alignment
import AbstractMachine.Proofs.Memory.Operations
import AbstractMachine.Proofs.Provenance.Carried

namespace AbstractMachine

/-- A place has an alignment of at least one, and its type and all parts of it are workable. -/
structure PlaceTy.Workable (place : PlaceTy) : Prop where
  aligned : 1 ≤ place.align
  ty : place.ty.All Ty.Workable

/-- What is left of an alignment some bytes into a place is still one. -/
theorem one_le_restrictAlign {align : Int} (aligned : 1 ≤ align) (offset : Int) :
    1 ≤ restrictAlign align offset :=
  le_restrictAlign powerOfTwo_one aligned (one_dvd offset)

/-! ## Choosers and predictors -/

/-- A chooser that fails in foreseen ways only, where there is any address at all. -/
def Chooser.Foreseeable (chooser : Chooser) : Prop :=
  ∀ asked c, 0 < c.limit → FailsIn Fault.Foreseen (chooser asked c)

/-- A predictor that fails in foreseen ways only, if the tests do that it may use. -/
def Predictor.Foreseeable (predictor : Predictor) : Prop :=
  ∀ asked q, (∀ id, FailsIn Fault.Foreseen (q.fits id)) →
    (∀ test ∈ q.contains, ∀ id, FailsIn Fault.Foreseen (test id)) →
      FailsIn Fault.Foreseen (predictor asked q)

theorem Solver.exists_floor (s : Solver) (n : Nat) {c : AddressConstraints}
    (positive : 0 < c.limit) : ∃ floor, s.floor n c = .ok floor := by
  unfold Solver.floor
  split
  · exact ⟨_, rfl⟩
  · exact ⟨0, if_pos positive⟩

/-- A solver finds an address, or that there is none. -/
theorem Solver.foreseeable_chooser (s : Solver) : s.chooser.Foreseeable := by
  intro asked c positive
  have solved : FailsIn Fault.Foreseen (s.solve asked.length c).1 := by
    unfold Solver.solve
    cases s.strategy with
    | lowest | highest => exact .ok _
    | random =>
        obtain ⟨floor, drawn⟩ := s.exists_floor asked.length positive
        simp only [drawn]
        cases c.lowest (some floor) <;> exact .ok _
  unfold Solver.chooser Solver.pick
  split
  · exact .ok _
  · exact .error trivial
  · exact .error (solved _ ‹_›)

theorem Chooser.foreseeable_scripted {answers : List (Except Fault Int)}
    (h : ∀ answer ∈ answers, FailsIn Fault.Foreseen answer) :
    (Chooser.scripted answers).Foreseeable := by
  intro asked c _
  unfold Chooser.scripted
  cases at_ : answers[asked.length]? with
  | none => exact .error trivial
  | some answer => exact h answer (List.mem_of_getElem? at_)

theorem FailsIn.firstOk {α : Type} {E : Fault → Prop} {test : α → Except Fault Bool}
    (h : ∀ x, FailsIn E (test x)) (xs : List α) : FailsIn E (firstOk test xs) := by
  induction xs with
  | nil => exact .ok _
  | cons x xs ih =>
      rw [AbstractMachine.firstOk]
      split
      · exact .error (h x _ ‹_›)
      · exact .ok _
      · exact ih

/-- The standard predictor fails as its tests do. -/
theorem Predictor.foreseeable_standard : Predictor.standard.Foreseeable := by
  intro asked q fits contains
  have preferred : FailsIn Fault.Foreseen (q.contains.elim (.ok none)
      (firstOk · (AllocId.sorted q.exposed))) := by
    cases given : q.contains with
    | none => exact .ok _
    | some test => exact .firstOk (contains test given) _
  refine .bind preferred fun found _ => ?_
  cases found with
  | none => exact .firstOk fits _
  | some id => exact .pure _

theorem Predictor.foreseeable_scripted (answers : List (Option AllocId)) :
    (Predictor.scripted answers).Foreseeable :=
  fun _ _ _ _ => .ok _

/-! ## Allocation -/

namespace Memory

variable {m m' : Memory} {p : Pointer} {size align : Int} {kind : AllocKind} {f : Fault}

theorem foreseen_allocation (m : Memory) (id : AllocId) :
    FailsIn Fault.Foreseen (m.allocation id) := by
  intro f hf
  rw [eq_of_allocation_eq_error hf]
  trivial

theorem foreseen_constraints (width : 1 ≤ m.target.ptrSize) (size align : Int) :
    FailsIn Fault.Foreseen (m.constraints size align) := by
  unfold constraints
  rw [m.target.validSize_eq width, m.target.addrLimit_eq width]
  exact .bind (.ok _) fun _ _ => .bind (.require trivial) fun _ _ => .bind (.require trivial)
    fun _ _ => .bind (.ok _) fun _ _ => .pure _

/-- Allocating fails in foreseen ways only, if the chooser does. -/
theorem foreseen_allocate (width : 1 ≤ m.target.ptrSize) (chooser : m.chooser.Foreseeable)
    (h : m.allocate size align kind = (.error f, m')) : f.Foreseen := by
  obtain ⟨-, refused⟩ | ⟨c, hc, -, answer⟩ := allocate_eq_error h
  · exact foreseen_constraints width size align f refused
  · obtain ⟨-, power, limit, hlimit, rfl⟩ := constraints_eq_ok_iff.1 hc
    obtain failed | ⟨addr, -, inadmissible | ⟨-, rfl⟩⟩ := answer
    · refine chooser _ _ ?_ f failed
      rw [m.target.addrLimit_eq width, Except.ok.injEq] at hlimit
      exact hlimit ▸ m.target.limit_pos
    · -- a power of two is no divisor that is zero
      have power : PowerOfTwo align := isPowerOfTwo_iff.1 power
      rw [AddressConstraints.admits_of_pos power.ne_zero] at inadmissible
      cases inadmissible
    · trivial

theorem foreseen_deallocate (m : Memory) (p : Pointer) (size align : Int) (kind : AllocKind) :
    FailsIn Fault.Foreseen (m.deallocate p size align kind) :=
  .deallocate fun id _ => m.foreseen_allocation id

/-! ## Access -/

/-- Judging an access fails in foreseen ways only, whatever the pointer and the size. -/
theorem foreseen_checkPtr (m : Memory) (p : Pointer) (size : Int) (aligned : 1 ≤ align) :
    FailsIn Fault.Foreseen (m.checkPtr p size align) :=
  .checkPtr (failsIn_isAligned_of_ne_zero (by omega) _) fun id _ => m.foreseen_allocation id

theorem foreseen_typedLoad (width : 1 ≤ m.target.ptrSize) {place : PlaceTy} (h : place.Workable) :
    FailsIn Fault.Foreseen (m.typedLoad p place) :=
  .typedLoad (fun _ => m.foreseen_checkPtr p _ h.aligned) (Ty.foreseen_decode width h.ty.every)

theorem foreseen_typedStore (width : 1 ≤ m.target.ptrSize) {place : PlaceTy} (h : place.Workable)
    (v : Value) : FailsIn Fault.Foreseen (m.typedStore p v place) :=
  .typedStore (Ty.foreseen_wellFormed width h.ty.every v) (Ty.foreseen_encode width h.ty.every v)
    fun _ => m.foreseen_checkPtr p _ h.aligned

theorem foreseen_deinit {place : PlaceTy} (h : place.Workable) :
    FailsIn Fault.Foreseen (m.deinit p place) :=
  .store (m.foreseen_checkPtr p _ h.aligned)

theorem foreseen_covers (m : Memory) (id : AllocId) (addr : Int) (onePastEnd : Bool) :
    FailsIn Fault.Foreseen (m.covers id addr onePastEnd) :=
  .bind (m.foreseen_allocation id) fun _ _ => .pure _

theorem foreseen_offsetInBounds (width : 1 ≤ m.target.ptrSize) (offset : Int) :
    FailsIn Fault.Foreseen (m.offsetInBounds p offset) :=
  .offsetInBounds (m.target.failsIn_isizeInBounds width) (m.target.failsIn_addrInBounds width)
    fun _ _ => m.foreseen_checkPtr _ _ (Int.le_refl 1)

/-! ## Retagging -/

theorem foreseen_retagValue {ty : Ty} (h : ty.Every Ty.Workable) (v : Value) :
    FailsIn Fault.Foreseen (m.retagValue ty v) := by
  refine failsIn_retagValue_of_ptrs (W := fun _ => True) (fun t p ht _ => ?_) h fun _ _ => trivial
  exact .retag fun pointee safe => m.foreseen_checkPtr p _ (ht.pointee_aligned pointee safe)

end Memory

end AbstractMachine
