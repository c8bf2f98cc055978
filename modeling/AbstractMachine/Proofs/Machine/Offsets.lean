/-
# AbstractMachine.Proofs.Machine.Offsets — how far a pointer may be moved

A pointer is moved by no bytes wherever it has an address. By any other distance it is moved if its
provenance names a live allocation that both addresses lie in, the one past the end among them
(`Spans`). The remaining checks are then passed by themselves: no allocation reaches the limit of
addresses, and none is longer than a distance can be.

So pointers are moved like points of an interval (`Moved`): moves add up, every move leads back, and
who may go far may stop on the way.
-/
import AbstractMachine.Proofs.Machine.Tagging
import AbstractMachine.Proofs.Provenance.Casts

namespace AbstractMachine

/-! ## Distances and addresses -/

/-- A distance is one in both directions. -/
theorem Target.isizeInBounds_of_max {target : Target} {top d : Int} (width : 1 ≤ target.ptrSize)
    (greatest : (IntTy.isize target).max = .ok top) (low : -top ≤ d) (high : d ≤ top) :
    target.isizeInBounds d = .ok true := by
  rw [IntTy.max_eq (t := IntTy.isize target) width, Except.ok.injEq] at greatest
  have least : (IntTy.isize target).low = -(IntTy.isize target).high - 1 := by
    simp [IntTy.low, IntTy.high, IntTy.isize]
  rw [isizeInBounds_eq width]
  simp only [Except.ok.injEq, decide_eq_true_eq]
  omega

namespace Allocation.Placed

variable {target : Target} {a : Allocation}

/-- What lies in an allocation or at its end is an address. -/
theorem addrInBounds (h : a.Placed target) {addr : Int} (start : a.addr ≤ addr)
    (stop : addr ≤ a.stop) : target.addrInBounds addr = .ok true := by
  have positive := h.positive
  have below := h.stop_lt_limit
  rw [Target.addrInBounds_eq h.one_le_ptrSize]
  simp only [Except.ok.injEq, decide_eq_true_eq]
  omega

/-- From one end of an allocation to the other it is a distance. -/
theorem isizeInBounds (h : a.Placed target) {d : Int} (back : -a.size ≤ d) (on : d ≤ a.size) :
    target.isizeInBounds d = .ok true := by
  obtain ⟨top, greatest, bounded⟩ := h.bounded
  exact Target.isizeInBounds_of_max h.one_le_ptrSize greatest (by omega) (by omega)

end Allocation.Placed

namespace Memory

variable {m : Memory} {p q r : Pointer} {d e : Int}

/-! ## When a pointer may be moved -/

/-- The provenance of a pointer names a live allocation; its address lies in there, or at the end,
and so does the one that is `d` bytes further. -/
def Spans (m : Memory) (p : Pointer) (d : Int) : Prop :=
  ∃ id a, p.provenance = some id ∧ m.allocation id = .ok a ∧ a.live = true ∧
    (a.addr ≤ p.addr ∧ p.addr ≤ a.stop) ∧ a.addr ≤ p.addr + d ∧ p.addr + d ≤ a.stop

theorem dereferenceable_zero (m : Memory) (p : Pointer) : m.dereferenceable p 0 1 = .ok () := by
  rw [dereferenceable, checkPtr_zero (by decide) (Int.emod_one _)]
  rfl

/-- No distance at all is asked for nothing but the address. -/
theorem offsetInBounds_zero_iff : m.offsetInBounds p 0 = .ok q ↔
    m.target.isizeInBounds 0 = .ok true ∧ m.target.addrInBounds p.addr = .ok true ∧ q = p := by
  rw [offsetInBounds_eq_ok_iff, Int.add_zero, min_self, max_self, Int.sub_self]
  simp only [dereferenceable_zero, true_and]

/-- Any other distance is asked for the bytes in between, and for nothing else. -/
theorem Laid.offsetInBounds_iff (laid : m.Laid) (some_ : d ≠ 0) :
    m.offsetInBounds p d = .ok q ↔ m.Spans p d ∧ q = { p with addr := p.addr + d } := by
  have extent : max p.addr (p.addr + d) - min p.addr (p.addr + d) ≠ 0 := by omega
  rw [offsetInBounds_eq_ok_iff]
  constructor
  · rintro ⟨-, -, bytes, rfl⟩
    refine ⟨?_, rfl⟩
    simp only [dereferenceable, bind_eq_ok_iff, checkPtr_eq_ok_iff] at bytes
    obtain ⟨_, ⟨-, ⟨none, -⟩ | ⟨-, a, rfl, hits⟩⟩, -⟩ := bytes
    · exact absurd none extent
    · obtain ⟨id, named, found⟩ := hits.named
      have start : a.addr ≤ min p.addr (p.addr + d) := hits.start
      have stop : min p.addr (p.addr + d) +
        (max p.addr (p.addr + d) - min p.addr (p.addr + d)) ≤ a.stop := hits.stop
      exact ⟨id, a, named, found, hits.live, by omega, by omega, by omega⟩
  · rintro ⟨⟨id, a, named, found, live, here, there⟩, rfl⟩
    have placed := laid.placed a (mem_allocations_of_allocation found)
    have length : a.stop = a.addr + a.size := rfl
    refine ⟨placed.isizeInBounds (by omega) (by omega), placed.addrInBounds there.1 there.2, ?_, rfl⟩
    rw [named]
    exact (dereferenceable_eq_ok_iff extent found placed.positive).2 ⟨live, by omega, by omega⟩

namespace Spans

/-- Who may be moved by some bytes may stay. -/
theorem stay (h : m.Spans p d) (laid : m.Laid) : m.offsetInBounds p 0 = .ok p := by
  obtain ⟨id, a, -, found, -, here, -⟩ := h
  have placed := laid.placed a (mem_allocations_of_allocation found)
  have nonneg := placed.nonneg
  exact offsetInBounds_zero_iff.2
    ⟨placed.isizeInBounds (by omega) nonneg, placed.addrInBounds here.1 here.2, rfl⟩

/-- Who may be moved by a distance may be moved by a part of it. -/
theorem part (h : m.Spans p d) (within : 0 ≤ e ∧ e ≤ d ∨ d ≤ e ∧ e ≤ 0) : m.Spans p e := by
  obtain ⟨id, a, named, found, live, here, there⟩ := h
  exact ⟨id, a, named, found, live, here, by omega⟩

/-- The way back is as long as the way there. -/
theorem back (h : m.Spans p d) : m.Spans { p with addr := p.addr + d } (-d) := by
  obtain ⟨id, a, named, found, live, here, there⟩ := h
  refine ⟨id, a, named, found, live, there, ?_⟩
  show a.addr ≤ p.addr + d + -d ∧ p.addr + d + -d ≤ a.stop
  rwa [Int.add_neg_cancel_right]

/-- Two ways inside an allocation make one: both are inside the same. -/
theorem trans (h : m.Spans p d) (h' : m.Spans { p with addr := p.addr + d } e) :
    m.Spans p (d + e) := by
  obtain ⟨id, a, named, found, live, here, -⟩ := h
  obtain ⟨id', b, named', found', -, -, there⟩ := h'
  obtain rfl := Option.some.inj (named.symm.trans named')
  obtain rfl := Except.ok.inj (found.symm.trans found')
  refine ⟨id, a, named, found, live, here, ?_⟩
  rw [← Int.add_assoc]
  exact there

end Spans

/-! ## What a move leads to -/

/-- A pointer was moved by a distance. -/
structure Moved (m : Memory) (p : Pointer) (d : Int) (q : Pointer) : Prop where
  provenance : q.provenance = p.provenance
  /-- There was no way around the end of the address space. -/
  wraps : p.wrappingOffset d m.target = .ok q
  back : m.offsetInBounds q (-d) = .ok p
  /-- Moves add up. -/
  onward : ∀ e r, m.offsetInBounds q e = .ok r → m.offsetInBounds p (d + e) = .ok r
  /-- Every distance up to this one is allowed as well. -/
  between : ∀ e, 0 ≤ e ∧ e ≤ d ∨ d ≤ e ∧ e ≤ 0 → ∃ r, m.offsetInBounds p e = .ok r

/-- What is an address is not wrapped around. -/
theorem wrappingOffset_of_addrInBounds {target : Target} (width : 1 ≤ target.ptrSize)
    (inside : target.addrInBounds (p.addr + d) = .ok true) :
    p.wrappingOffset d target = .ok { p with addr := p.addr + d } := by
  rw [Target.addrInBounds_eq width, Except.ok.injEq, decide_eq_true_eq] at inside
  rw [Pointer.wrappingOffset, Target.wrapAddr_eq width, Int.emod_eq_of_lt inside.1 inside.2]
  rfl

/-- Where something is a distance, pointers have at least one byte. -/
theorem one_le_ptrSize_of_isizeInBounds {target : Target} {b : Bool}
    (h : target.isizeInBounds d = .ok b) : 1 ≤ target.ptrSize := by
  by_contra small
  have negative : (IntTy.isize target).bits - 1 < 0 := by
    show target.ptrSize * 8 - 1 < 0
    omega
  have signed : (IntTy.isize target).signed = true := rfl
  simp [Target.isizeInBounds, IntTy.canRepresent, IntTy.min, signed, shiftedOne, negative, bind,
    Except.bind] at h

theorem Laid.moved (laid : m.Laid) (run : m.offsetInBounds p d = .ok q) : m.Moved p d q := by
  obtain ⟨distance, inside, -, same⟩ := offsetInBounds_eq_ok_iff.1 run
  have width := one_le_ptrSize_of_isizeInBounds distance
  by_cases none : d = 0
  · subst none
    obtain ⟨-, -, rfl⟩ := offsetInBounds_zero_iff.1 run
    refine ⟨rfl, ?_, ?_, fun e r onward => ?_, fun e within => ?_⟩
    · rw [wrappingOffset_of_addrInBounds width inside, Int.add_zero]
    · rwa [Int.neg_zero]
    · rwa [Int.zero_add]
    · obtain rfl : e = 0 := by omega
      exact ⟨q, run⟩
  · obtain ⟨spans, rfl⟩ := (laid.offsetInBounds_iff none).1 run
    have home : ({ p with addr := p.addr + d + -d } : Pointer) = p := by
      rw [Int.add_neg_cancel_right]
    refine ⟨rfl, wrappingOffset_of_addrInBounds width inside, ?_, fun e r onward => ?_,
      fun e within => ?_⟩
    · exact (laid.offsetInBounds_iff (Int.neg_ne_zero.2 none)).2 ⟨spans.back, home.symm⟩
    · by_cases staying : e = 0
      · subst staying
        obtain ⟨-, -, rfl⟩ := offsetInBounds_zero_iff.1 onward
        rwa [Int.add_zero]
      obtain ⟨further, rfl⟩ := (laid.offsetInBounds_iff staying).1 onward
      have whole := spans.trans further
      by_cases returned : d + e = 0
      · -- The second way led back to where the first one began.
        rw [returned, Int.add_assoc, returned, Int.add_zero]
        exact spans.stay laid
      · refine (laid.offsetInBounds_iff returned).2 ⟨whole, ?_⟩
        rw [Int.add_assoc]
    · by_cases staying : e = 0
      · exact ⟨p, staying ▸ spans.stay laid⟩
      · exact ⟨_, (laid.offsetInBounds_iff staying).2 ⟨spans.part within, rfl⟩⟩

/-- In every memory that there can be: a pointer that is moved inside its allocation keeps its
provenance, goes where it would go around the address space, comes back by the same distance, may go
on from there in one move with the way so far, and may be moved by less; and a distance that is not
zero is allowed exactly if both addresses lie in the live allocation that the provenance names. This
is what any machine with that memory answers. -/
theorem offsetInBounds_of_reached {target : Target} (h : Reached target m) (p : Pointer) (d : Int) :
    (∀ q, m.offsetInBounds p d = .ok q → m.Moved p d q) ∧
    (d ≠ 0 → ((∃ q, m.offsetInBounds p d = .ok q) ↔ m.Spans p d)) ∧
    ∀ machine : Machine, machine.store.memory = m →
      Machine.offsetInBounds p d machine = (m.offsetInBounds p d, machine) := by
  refine ⟨fun q run => h.laid.moved run, fun some_ => ?_, ?_⟩
  · constructor
    · rintro ⟨q, run⟩
      exact ((h.laid.offsetInBounds_iff some_).1 run).1
    · intro spans
      exact ⟨_, (h.laid.offsetInBounds_iff some_).2 ⟨spans, rfl⟩⟩
  · rintro machine rfl
    exact Machine.apply_offsetInBounds p d machine

/-- Memory in which four bytes were allocated, at the addresses from eight on. -/
def fourBytes : Memory :=
  (fresh ⟨8, .little⟩ fun _ _ => .ok 8).afterAll [.allocate 4 4 .heap]

/-- From the end of an allocation one can go back into it, and on from its start to the end. -/
theorem offsetInBounds_fourBytes :
    fourBytes.Moved ⟨12, some ⟨0⟩⟩ (-3) ⟨9, some ⟨0⟩⟩ ∧
      ∃ q, fourBytes.offsetInBounds ⟨8, some ⟨0⟩⟩ 4 = .ok q := by
  have reached : Reached ⟨8, .little⟩ fourBytes := .calls _ _
  obtain ⟨moved, -, -⟩ := offsetInBounds_of_reached reached ⟨12, some ⟨0⟩⟩ (-3)
  obtain ⟨-, allowed, -⟩ := offsetInBounds_of_reached reached ⟨8, some ⟨0⟩⟩ 4
  have spans : fourBytes.Spans ⟨8, some ⟨0⟩⟩ 4 :=
    ⟨⟨0⟩, _, rfl, rfl, rfl, ⟨by decide, by decide⟩, by decide, by decide⟩
  exact ⟨moved _ rfl, (allowed (by decide)).2 spans⟩

end Memory

end AbstractMachine
