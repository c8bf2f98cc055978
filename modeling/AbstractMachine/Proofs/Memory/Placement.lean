/-
# AbstractMachine.Proofs.Memory.Placement — a solver finds the best address, and one if there is any

A solver is given an optimization problem over as many addresses as the target has, and answers from
a list of a few candidates. The candidates are enough. A solution can be lowered until it is the
alignment, or the first multiple from the floor on, or the first multiple behind some occupied
range; it can be raised until it is the last multiple before some occupied range, or the last one
that ends below the limit (`exists_candidate_le`, `exists_candidate_ge`). So what the solver answers
is the least or the greatest of all solutions, and it answers nothing only if there are none.

The allocator checks the answer by a test of its own. The test accepts what solves the system for
some multiple, and nothing else (`admits_iff_exists_satisfies`), so a solver is never caught out:
allocation fails for lack of an address exactly if no address would have been accepted.
-/
import Mathlib.Order.Bounds.Basic
import AbstractMachine.Proofs.Codec
import AbstractMachine.Proofs.Memory.Operations

namespace AbstractMachine

namespace AddressConstraints

variable {c : AddressConstraints} {floor : Option Int} {addr n x : Int}

/-! ## Solutions -/

/-- The system of constraints as it is put to a solver, for two unknowns: the address, and the
multiple of the alignment that it is. -/
structure Satisfies (c : AddressConstraints) (addr slot : Int) : Prop where
  positive : 1 ≤ slot
  multiple : addr = slot * c.align
  below : addr + c.size < c.limit
  apart : ∀ r ∈ c.occupied, addr + c.size ≤ r.start ∨ r.stop ≤ addr

/-- The addresses that the allocator accepts. -/
def admitted (c : AddressConstraints) : Set Int :=
  {addr | c.admits addr = .ok true}

/-- The addresses that the allocator accepts and that are not below a floor, if there is one. -/
def admittedFrom (c : AddressConstraints) (floor : Option Int) : Set Int :=
  {addr | addr ∈ c.admitted ∧ ∀ f ∈ floor, f ≤ addr}

theorem mem_admittedFrom :
    addr ∈ c.admittedFrom floor ↔ addr ∈ c.admitted ∧ ∀ f ∈ floor, f ≤ addr :=
  Iff.rfl

@[simp] theorem admittedFrom_none : c.admittedFrom none = c.admitted := by
  simp [admittedFrom]

theorem mem_admitted_iff (align : 1 ≤ c.align) :
    addr ∈ c.admitted ↔ 0 < addr ∧ c.align ∣ addr ∧ addr + c.size < c.limit ∧
      ∀ r ∈ c.occupied, addr + c.size ≤ r.start ∨ r.stop ≤ addr := by
  have nonzero : c.align ≠ 0 := by omega
  refine Memory.admits_eq_ok_true_iff.trans ?_
  simp only [Int.dvd_iff_emod_eq_zero, ne_eq, nonzero, not_false_eq_true, true_and]

/-- An address is admitted exactly if it solves the system for some multiple. -/
theorem admits_iff_exists_satisfies (align : 1 ≤ c.align) :
    c.admits addr = .ok true ↔ ∃ slot, c.Satisfies addr slot := by
  refine (mem_admitted_iff align).trans ⟨?_, ?_⟩
  · rintro ⟨positive, ⟨slot, rfl⟩, below, apart⟩
    have positive : 1 ≤ slot := Int.pos_of_mul_pos_right positive (by omega)
    exact ⟨slot, positive, Int.mul_comm _ _, below, apart⟩
  · rintro ⟨slot, positive, rfl, below, apart⟩
    exact ⟨Int.mul_pos (by omega) (by omega), Int.dvd_mul_left _ _, below, apart⟩

/-- The solver looks among the addresses that are admitted. -/
theorem solvesFrom_iff (align : 1 ≤ c.align) :
    c.solvesFrom floor addr = true ↔ addr ∈ c.admittedFrom floor := by
  have slot : (addr % c.align = 0 ∧ 1 ≤ addr / c.align) ↔ (0 < addr ∧ c.align ∣ addr) := by
    rw [Int.dvd_iff_emod_eq_zero]
    constructor
    · rintro ⟨divides, positive⟩
      have split := Int.mul_ediv_add_emod addr c.align
      have product : 0 < c.align * (addr / c.align) := Int.mul_pos (by omega) (by omega)
      omega
    · rintro ⟨positive, divides⟩
      exact ⟨divides, Int.ediv_pos_of_pos_of_dvd positive (by omega)
        (Int.dvd_of_emod_eq_zero divides)⟩
  rw [mem_admittedFrom, mem_admitted_iff align]
  have nonzero : c.align ≠ 0 := by omega
  have floored : floor.all (· ≤ addr) = true ↔ ∀ f ∈ floor, f ≤ addr := by
    cases floor <;> simp
  simp only [solvesFrom, solves, isSlot, if_neg nonzero, Bool.and_eq_true, beq_iff_eq,
    decide_eq_true_eq, slot, List.all_eq_true, apart, Bool.or_eq_true, floored, and_assoc]

/-! ## Multiples of the alignment -/

theorem dvd_multipleBelow : c.align ∣ c.multipleBelow n :=
  Int.dvd_mul_left _ _

theorem multipleBelow_le (align : 1 ≤ c.align) : c.multipleBelow n ≤ n :=
  Int.ediv_mul_le n (by omega)

theorem le_multipleBelow (align : 1 ≤ c.align) (multiple : c.align ∣ x) (h : x ≤ n) :
    x ≤ c.multipleBelow n := by
  obtain ⟨k, rfl⟩ := multiple
  have bound : k ≤ n / c.align := Int.le_ediv_of_mul_le (by omega) (Int.mul_comm _ k ▸ h)
  rw [multipleBelow, Int.mul_comm (n / c.align)]
  exact Int.mul_le_mul_of_nonneg_left bound (by omega)

theorem multipleAbove_eq : c.multipleAbove n = -c.multipleBelow (-n) := by
  rw [multipleAbove, multipleBelow, Int.neg_mul]

theorem dvd_multipleAbove : c.align ∣ c.multipleAbove n :=
  Int.dvd_mul_left _ _

theorem le_multipleAbove (align : 1 ≤ c.align) : n ≤ c.multipleAbove n := by
  have below := multipleBelow_le (n := -n) align
  rw [multipleAbove_eq]
  omega

theorem multipleAbove_le (align : 1 ≤ c.align) (multiple : c.align ∣ x) (h : n ≤ x) :
    c.multipleAbove n ≤ x := by
  have below := le_multipleBelow (n := -n) align (Int.dvd_neg.2 multiple) (by omega)
  rw [multipleAbove_eq]
  omega

/-! ## The candidates are enough -/

/-- Where a least solution may lie. -/
def lowCandidates (c : AddressConstraints) (floor : Option Int) : List Int :=
  c.align :: (floor.toList ++ c.occupied.map (·.stop)).map c.multipleAbove

/-- Where a greatest solution may lie. -/
def highCandidates (c : AddressConstraints) : List Int :=
  c.align :: ((c.limit - 1 - c.size) :: c.occupied.map (·.start - c.size)).map c.multipleBelow

theorem lowest_eq : c.lowest floor = ((c.lowCandidates floor).filter (c.solvesFrom floor)).min? :=
  rfl

theorem highest_eq : c.highest floor = (c.highCandidates.filter (c.solvesFrom floor)).max? :=
  rfl

theorem dvd_of_mem_lowCandidates (h : x ∈ c.lowCandidates floor) : c.align ∣ x := by
  obtain rfl | h := List.mem_cons.1 h
  · exact Int.dvd_refl _
  · obtain ⟨n, -, rfl⟩ := List.mem_map.1 h
    exact dvd_multipleAbove

theorem dvd_of_mem_highCandidates (h : x ∈ c.highCandidates) : c.align ∣ x := by
  obtain rfl | h := List.mem_cons.1 h
  · exact Int.dvd_refl _
  · obtain ⟨n, -, rfl⟩ := List.mem_map.1 h
    exact dvd_multipleBelow

theorem align_le_of_mem_admitted (align : 1 ≤ c.align) (h : x ∈ c.admitted) : c.align ≤ x := by
  obtain ⟨positive, multiple, -⟩ := (mem_admitted_iff align).1 h
  exact Int.le_of_dvd positive multiple

/-- No solution lies below all candidates that are solutions. -/
theorem exists_candidate_le (align : 1 ≤ c.align) (h : x ∈ c.admittedFrom floor) :
    ∃ k ∈ c.lowCandidates floor, k ≤ x ∧ k ∈ c.admittedFrom floor := by
  obtain ⟨admitted, above⟩ := h
  obtain ⟨-, multiple, below, apart⟩ := (mem_admitted_iff align).1 admitted
  have first := align_le_of_mem_admitted align admitted
  -- The candidate to take is the largest one that is not above the solution.
  obtain ⟨k, largest⟩ : ∃ k, ((c.lowCandidates floor).filter (· ≤ x)).max? = some k := by
    refine Option.isSome_iff_exists.1 (List.isSome_max?_of_mem (a := c.align) ?_)
    simp [lowCandidates, first]
  obtain ⟨mem, bounds⟩ := List.max?_eq_some_iff.1 largest
  obtain ⟨mem, le⟩ := List.mem_filter.1 mem
  have le : k ≤ x := by simpa using le
  have maximal (n : Int) (hn : n ∈ floor.toList ++ c.occupied.map (·.stop)) (bound : n ≤ x) :
      n ≤ k := by
    refine (le_multipleAbove align).trans (bounds _ (List.mem_filter.2 ⟨?_, ?_⟩))
    · exact List.mem_cons_of_mem _ (List.mem_map_of_mem hn)
    · exact decide_eq_true (multipleAbove_le align multiple bound)
  refine ⟨k, mem, le, (mem_admitted_iff align).2 ⟨?_, dvd_of_mem_lowCandidates mem, ?_, ?_⟩, ?_⟩
  · have least : c.align ≤ k := bounds c.align (by simp [lowCandidates, first])
    omega
  · omega
  · intro r hr
    -- A range that the solution lies behind ends where another candidate is.
    obtain before | behind := apart r hr
    · exact .inl (by omega)
    · refine .inr (maximal r.stop ?_ behind)
      exact List.mem_append_right _ (List.mem_map_of_mem hr)
  · intro f hf
    refine maximal f (List.mem_append_left _ ?_) (above f hf)
    exact Option.mem_toList.2 hf

/-- No solution lies above all candidates that are solutions. -/
theorem exists_candidate_ge (align : 1 ≤ c.align) (h : x ∈ c.admittedFrom floor) :
    ∃ k ∈ c.highCandidates, x ≤ k ∧ k ∈ c.admittedFrom floor := by
  obtain ⟨admitted, above⟩ := h
  obtain ⟨positive, multiple, below, apart⟩ := (mem_admitted_iff align).1 admitted
  have last : c.multipleBelow (c.limit - 1 - c.size) ∈ c.highCandidates := by
    simp [highCandidates]
  have last_ge : x ≤ c.multipleBelow (c.limit - 1 - c.size) :=
    le_multipleBelow align multiple (by omega)
  -- The candidate to take is the smallest one that is not below the solution.
  obtain ⟨k, smallest⟩ : ∃ k, (c.highCandidates.filter (x ≤ ·)).min? = some k := by
    refine Option.isSome_iff_exists.1 (List.isSome_min?_of_mem (List.mem_filter.2 ⟨last, ?_⟩))
    exact decide_eq_true last_ge
  obtain ⟨mem, minimal⟩ := List.min?_eq_some_iff.1 smallest
  obtain ⟨mem, ge⟩ := List.mem_filter.1 mem
  have ge : x ≤ k := by simpa using ge
  refine ⟨k, mem, ge, (mem_admitted_iff align).2 ⟨?_, dvd_of_mem_highCandidates mem, ?_, ?_⟩, ?_⟩
  · omega
  · have least := minimal _ (List.mem_filter.2 ⟨last, decide_eq_true last_ge⟩)
    have fits := multipleBelow_le (n := c.limit - 1 - c.size) align
    omega
  · intro r hr
    -- A range that the solution lies before starts where another candidate ends.
    obtain before | behind := apart r hr
    · have ends : x ≤ c.multipleBelow (r.start - c.size) :=
        le_multipleBelow align multiple (by omega)
      have candidate : c.multipleBelow (r.start - c.size) ∈ c.highCandidates := by
        refine List.mem_cons_of_mem _ (List.mem_map_of_mem (List.mem_cons_of_mem _ ?_))
        exact List.mem_map_of_mem (f := (·.start - c.size)) hr
      have least := minimal _ (List.mem_filter.2 ⟨candidate, decide_eq_true ends⟩)
      have fits := multipleBelow_le (n := r.start - c.size) align
      exact .inl (by omega)
    · exact .inr (by omega)
  · intro f hf
    exact (above f hf).trans ge

/-! ## Optima -/

section Best

variable {candidates : List Int} {r : Int → Int → Prop}

/-- Where no solution is better than all candidates that are solutions, the best of those is the best of
all solutions. -/
theorem best_iff [IsPartialOrder Int r] (align : 1 ≤ c.align)
    (enough : ∀ x ∈ c.admittedFrom floor, ∃ k ∈ candidates, r k x ∧ k ∈ c.admittedFrom floor) :
    (addr ∈ candidates.filter (c.solvesFrom floor) ∧
        ∀ k ∈ candidates.filter (c.solvesFrom floor), r addr k) ↔
      addr ∈ c.admittedFrom floor ∧ ∀ x ∈ c.admittedFrom floor, r addr x := by
  simp only [List.mem_filter, solvesFrom_iff align]
  constructor
  · rintro ⟨⟨-, admitted⟩, best⟩
    refine ⟨admitted, fun x hx => ?_⟩
    obtain ⟨k, mem, above, solution⟩ := enough x hx
    exact trans_of r (best k ⟨mem, solution⟩) above
  · rintro ⟨admitted, best⟩
    obtain ⟨k, mem, above, solution⟩ := enough addr admitted
    obtain rfl : k = addr := antisymm_of r above (best k solution)
    exact ⟨⟨mem, admitted⟩, fun j hj => best j hj.2⟩

/-- Then there are no solutions if there are none among the candidates. -/
theorem filter_eq_nil_iff (align : 1 ≤ c.align)
    (enough : ∀ x ∈ c.admittedFrom floor, ∃ k ∈ candidates, r k x ∧ k ∈ c.admittedFrom floor) :
    candidates.filter (c.solvesFrom floor) = [] ↔ c.admittedFrom floor = ∅ := by
  simp only [List.filter_eq_nil_iff, solvesFrom_iff align, Set.eq_empty_iff_forall_notMem]
  constructor
  · intro none x hx
    obtain ⟨k, mem, -, solution⟩ := enough x hx
    exact none k mem solution
  · exact fun empty k _ => empty k

end Best

/-- What the solver finds lowest is the least solution there is. -/
theorem lowest_eq_some_iff (align : 1 ≤ c.align) :
    c.lowest floor = some addr ↔ IsLeast (c.admittedFrom floor) addr := by
  rw [lowest_eq, List.min?_eq_some_iff]
  exact best_iff align fun _ => exists_candidate_le align

/-- The solver finds nothing lowest only where there are no solutions. -/
theorem lowest_eq_none_iff (align : 1 ≤ c.align) :
    c.lowest floor = none ↔ c.admittedFrom floor = ∅ := by
  rw [lowest_eq, List.min?_eq_none_iff]
  exact filter_eq_nil_iff align fun _ => exists_candidate_le align

/-- What the solver finds highest is the greatest solution there is. -/
theorem highest_eq_some_iff (align : 1 ≤ c.align) :
    c.highest floor = some addr ↔ IsGreatest (c.admittedFrom floor) addr := by
  rw [highest_eq, List.max?_eq_some_iff]
  exact best_iff (r := (· ≥ ·)) align fun _ => exists_candidate_ge align

/-- The solver finds nothing highest only where there are no solutions. -/
theorem highest_eq_none_iff (align : 1 ≤ c.align) :
    c.highest floor = none ↔ c.admittedFrom floor = ∅ := by
  rw [highest_eq, List.max?_eq_none_iff]
  exact filter_eq_nil_iff (r := (· ≥ ·)) align fun _ => exists_candidate_ge align

end AddressConstraints

/-! ## Picks -/

namespace Solver

variable {s : Solver} {n : Nat} {c : AddressConstraints} {addr f : Int}

/-- What a pick has to be, for each of the strategies, and when there has to be one. -/
structure Optimal (s : Solver) (n : Nat) (c : AddressConstraints) : Prop where
  lowest : s.strategy = .lowest → ∀ addr, s.pick n c = .ok addr ↔ IsLeast c.admitted addr
  highest : s.strategy = .highest → ∀ addr, s.pick n c = .ok addr ↔ IsGreatest c.admitted addr
  random : s.strategy = .random → ∀ f, s.floor n c = .ok f → ∀ addr, s.pick n c = .ok addr ↔
    IsLeast (c.admittedFrom (some f)) addr ∨
      c.admittedFrom (some f) = ∅ ∧ IsLeast c.admitted addr
  fails : ∀ e, s.pick n c = .error e ↔
    e = .noChoice (.noAddress c.size c.align) ∧ c.admitted = ∅

/-- Whether a solver has a floor to start from, where it needs one. -/
def Draws (s : Solver) (c : AddressConstraints) : Prop :=
  s.strategy = .random → s.floors = [] → 1 ≤ c.limit

theorem Draws.exists_floor (h : s.Draws c) (random : s.strategy = .random) (n : Nat) :
    ∃ f, s.floor n c = .ok f := by
  rw [floor]
  cases given : s.floors[n % s.floors.length]? with
  | some f => exact ⟨f, rfl⟩
  | none =>
      have outside := List.getElem?_eq_none_iff.1 given
      have empty : s.floors = [] := by
        by_contra nonempty
        have inside := Nat.mod_lt n (List.length_pos_iff.2 nonempty)
        omega
      have positive := h random empty
      exact ⟨0, if_pos (by omega)⟩

theorem pick_eq_ok_iff : s.pick n c = .ok addr ↔ (s.solve n c).1 = .ok (some addr) := by
  rw [pick]
  rcases (s.solve n c).1 with e | _ | found <;> simp

theorem pick_eq_error_iff {e : Fault} : s.pick n c = .error e ↔
    (s.solve n c).1 = .error e ∨
      (s.solve n c).1 = .ok none ∧ e = .noChoice (.noAddress c.size c.align) := by
  rw [pick]
  rcases (s.solve n c).1 with e | _ | found <;> simp [eq_comm]

/-- Nothing fails but the drawing of a floor. -/
theorem solve_eq_error {e : Fault} (h : (s.solve n c).1 = .error e) :
    e = .arithmetic .emptyRange := by
  cases strategy : s.strategy with
  | lowest => simp [solve, strategy] at h
  | highest => simp [solve, strategy] at h
  | random =>
      simp only [solve, strategy] at h
      split at h
      · rename_i undrawn
        obtain rfl := Except.error.inj h
        unfold floor at undrawn
        split at undrawn
        · cases undrawn
        · split at undrawn
          · cases undrawn
          · exact (Except.error.inj undrawn).symm
      · split at h <;> cases h

theorem solve_of_lowest (h : s.strategy = .lowest) : (s.solve n c).1 = .ok (c.lowest none) := by
  rw [solve, h]

theorem solve_of_highest (h : s.strategy = .highest) :
    (s.solve n c).1 = .ok (c.highest none) := by
  rw [solve, h]

/-- The search from the floor comes first. -/
theorem solve_of_random (h : s.strategy = .random) (draws : s.floor n c = .ok f) :
    (s.solve n c).1 = .ok ((c.lowest (some f)).or (c.lowest none)) := by
  rw [solve, h]
  simp only [draws]
  cases c.lowest (some f) <;> rfl

/-- What has a floor to start from, if it needs one, finds the best address, and one if there is
any. -/
theorem optimal_of_draws (align : 1 ≤ c.align) (draws : s.Draws c) (n : Nat) : s.Optimal n c where
  lowest h addr := by
    rw [pick_eq_ok_iff, solve_of_lowest h, Except.ok.injEq,
      AddressConstraints.lowest_eq_some_iff align, AddressConstraints.admittedFrom_none]
  highest h addr := by
    rw [pick_eq_ok_iff, solve_of_highest h, Except.ok.injEq,
      AddressConstraints.highest_eq_some_iff align, AddressConstraints.admittedFrom_none]
  random h f drawn addr := by
    rw [pick_eq_ok_iff, solve_of_random h drawn, Except.ok.injEq, Option.or_eq_some_iff,
      AddressConstraints.lowest_eq_some_iff align, AddressConstraints.lowest_eq_none_iff align,
      AddressConstraints.lowest_eq_some_iff align, AddressConstraints.admittedFrom_none]
  fails e := by
    -- Every strategy comes back empty-handed exactly where a search without a floor does.
    have solved : ∃ o, (s.solve n c).1 = .ok o ∧ (o = none ↔ c.admitted = ∅) := by
      cases h : s.strategy with
      | lowest =>
          refine ⟨_, solve_of_lowest h, ?_⟩
          rw [AddressConstraints.lowest_eq_none_iff align, AddressConstraints.admittedFrom_none]
      | highest =>
          refine ⟨_, solve_of_highest h, ?_⟩
          rw [AddressConstraints.highest_eq_none_iff align, AddressConstraints.admittedFrom_none]
      | random =>
          obtain ⟨f, drawn⟩ := draws.exists_floor h n
          refine ⟨_, solve_of_random h drawn, ?_⟩
          rw [Option.or_eq_none_iff, AddressConstraints.lowest_eq_none_iff align,
            AddressConstraints.lowest_eq_none_iff align, AddressConstraints.admittedFrom_none]
          refine and_iff_right_of_imp fun empty => Set.eq_empty_of_subset_empty ?_
          exact fun x hx => empty ▸ hx.1
    obtain ⟨o, solved, none_iff⟩ := solved
    rw [pick_eq_error_iff, solved]
    simp [none_iff, and_comm]

/-- What is picked is admitted. -/
theorem mem_admitted_of_pick (align : 1 ≤ c.align) (draws : s.Draws c)
    (picked : s.pick n c = .ok addr) : addr ∈ c.admitted := by
  have best := optimal_of_draws align draws n
  cases strategy : s.strategy with
  | lowest => exact ((best.lowest strategy addr).1 picked).1
  | highest => exact ((best.highest strategy addr).1 picked).1
  | random =>
      obtain ⟨f, drawn⟩ := draws.exists_floor strategy n
      obtain least | ⟨-, least⟩ := (best.random strategy f drawn addr).1 picked
      · exact least.1.1
      · exact least.1

/-- An admitted address is the least admitted address from itself on. -/
theorem pick_of_floor_eq (align : 1 ≤ c.align) (random : s.strategy = .random)
    (drawn : s.floor n c = .ok addr) (admitted : addr ∈ c.admitted) : s.pick n c = .ok addr := by
  have least : IsLeast (c.admittedFrom (some addr)) addr := by
    refine ⟨⟨admitted, ?_⟩, fun x hx => ?_⟩
    · rintro f ⟨⟩
      exact le_rfl
    · exact hx.2 addr rfl
  rw [pick_eq_ok_iff, solve_of_random random drawn,
    (AddressConstraints.lowest_eq_some_iff align).2 least, Option.some_or]

end Solver

/-! ## Allocation -/

namespace Memory

variable {m : Memory} {size align addr : Int} {kind : AllocKind} {c : AddressConstraints}

/-- Whether an allocation could be put at an address. -/
structure Fits (m : Memory) (size align addr : Int) : Prop where
  positive : 0 < addr
  aligned : align ∣ addr
  below : ∃ limit, m.target.addrLimit = .ok limit ∧ addr + size < limit
  apart : ∀ a ∈ m.allocations, a.live = true → addr + size ≤ a.addr ∨ a.stop ≤ addr

theorem one_le_align_of_constraints (h : m.constraints size align = .ok c) : 1 ≤ c.align := by
  obtain ⟨-, power, limit, -, rfl⟩ := constraints_eq_ok_iff.1 h
  obtain ⟨k, rfl⟩ := isPowerOfTwo_iff.1 power
  exact one_shiftLeft_pos k

theorem one_le_limit_of_constraints (h : m.constraints size align = .ok c) : 1 ≤ c.limit := by
  obtain ⟨-, -, limit, hlimit, rfl⟩ := constraints_eq_ok_iff.1 h
  rw [Target.addrLimit, shiftedOne] at hlimit
  split at hlimit
  · cases hlimit
  · obtain rfl := Except.ok.inj hlimit
    exact one_shiftLeft_pos _

theorem mem_admitted_iff_fits (h : m.constraints size align = .ok c) :
    addr ∈ c.admitted ↔ m.Fits size align addr := by
  rw [AddressConstraints.mem_admitted_iff (one_le_align_of_constraints h)]
  obtain ⟨-, -, limit, hlimit, rfl⟩ := constraints_eq_ok_iff.1 h
  constructor
  · rintro ⟨positive, aligned, below, apart⟩
    refine ⟨positive, aligned, ⟨limit, hlimit, below⟩, fun a ha alive => ?_⟩
    exact apart a.range (List.mem_map_of_mem (List.mem_filter.2 ⟨ha, alive⟩))
  · rintro ⟨positive, aligned, ⟨limit', hlimit', below⟩, apart⟩
    obtain rfl := Except.ok.inj (hlimit.symm.trans hlimit')
    refine ⟨positive, aligned, below, fun r hr => ?_⟩
    obtain ⟨a, ha, rfl⟩ := List.mem_map.1 hr
    obtain ⟨ha, alive⟩ := List.mem_filter.1 ha
    exact apart a ha alive

/-- A solver's answers are always taken. -/
theorem allocate_eq_error_of_solver {s : Solver} {m' : Memory} {e : Fault}
    (chooser : m.chooser = s.chooser) (h : m.allocate size align kind = (.error e, m')) :
    m.constraints size align = .error e ∨
      ∃ c, m.constraints size align = .ok c ∧ c.admitted = ∅ ∧
        e = .noChoice (.noAddress size align) := by
  obtain ⟨-, refused⟩ | ⟨c, hc, -, failed⟩ := allocate_eq_error h
  · exact .inl refused
  · have align := one_le_align_of_constraints hc
    have draws : s.Draws c := fun _ _ => one_le_limit_of_constraints hc
    rw [chooser] at failed
    obtain gaveUp | ⟨addr, answer, rejected⟩ := failed
    · obtain ⟨rfl, none⟩ := ((s.optimal_of_draws align draws _).fails e).1 gaveUp
      obtain ⟨-, -, limit, -, rfl⟩ := constraints_eq_ok_iff.1 hc
      exact .inr ⟨_, hc, none, rfl⟩
    · have admitted : c.admits addr = .ok true := Solver.mem_admitted_of_pick align draws answer
      simp [admitted] at rejected

/-- The faults that speak of no address. -/
def Unplaced : Fault → Prop
  | .undefined _ | .arithmetic _ => True
  | _ => False

theorem failsIn_unplaced_constraints (m : Memory) (size align : Int) :
    FailsIn Unplaced (m.constraints size align) := by
  have shifted (n : Int) : FailsIn Unplaced (shiftedOne n) := .ite (.error trivial) (.ok _)
  have greatest (t : IntTy) : FailsIn Unplaced t.max := .bind (shifted _) fun _ _ => .pure _
  have valid : FailsIn Unplaced (m.target.validSize size) :=
    .ite (.pure _) (.bind (greatest _) fun _ _ => .pure _)
  exact .bind valid fun _ _ => .bind (.require trivial) fun _ _ =>
    .bind (.require trivial) fun _ _ => .bind (shifted _) fun _ _ => .pure _

/-- With a solver for a chooser, no address is found inadmissible, and an allocation that is valid
lacks an address exactly if there is none where it fits. -/
theorem allocate_of_solver {s : Solver} (chooser : m.chooser = s.chooser) :
    (∀ addr, (m.allocate size align kind).1 ≠ .error (.defect (.inadmissibleAddress addr))) ∧
      ∀ reason, (m.allocate size align kind).1 = .error (.noChoice reason) ↔
        (∃ c, m.constraints size align = .ok c) ∧ reason = .noAddress size align ∧
          ∀ addr, ¬m.Fits size align addr := by
  rcases h : m.allocate size align kind with ⟨e | p, m'⟩
  · obtain refused | ⟨c, hc, none, rfl⟩ := allocate_eq_error_of_solver chooser h
    · have unplaced := failsIn_unplaced_constraints m size align e refused
      refine ⟨?_, fun reason => ⟨?_, by simp [refused]⟩⟩
      · rintro addr ⟨⟩
        exact unplaced
      · rintro ⟨⟩
        exact unplaced.elim
    · have nowhere (addr : Int) : ¬m.Fits size align addr := fun fits => by
        simpa [none] using (mem_admitted_iff_fits hc).2 fits
      simp [hc, nowhere, eq_comm]
  · obtain ⟨c, addr, hc, -, admitted, -⟩ := allocate_eq_ok_iff.1 h
    have fits := (mem_admitted_iff_fits hc).1 admitted
    refine ⟨by simp, fun reason => ⟨by simp, ?_⟩⟩
    rintro ⟨-, -, nowhere⟩
    exact absurd fits (nowhere addr)

end Memory

/-! ## The choice of addresses -/

/-- A solver finds what there is to find. An address solves the system for some multiple exactly if
the allocator accepts it; what is picked is the least such address, or the greatest, or the least
from a drawn floor on if there is one and else the least of all; nothing is picked only where
nothing would be accepted; and every address that would be accepted is picked for some floor that
can be drawn. So an allocation never fails for what a solver answered, and lacks an address only
where there is none. -/
theorem Solver.optimal_and_complete :
    (∀ c : AddressConstraints, 1 ≤ c.align → 0 ≤ c.size →
      (∀ addr, (∃ slot, c.Satisfies addr slot) ↔ c.admits addr = .ok true) ∧
      (∀ (s : Solver) (n : Nat), s.Draws c → s.Optimal n c) ∧
      ∀ addr ∈ c.admitted, (0 ≤ addr ∧ addr < c.limit) ∧
        ∀ (s : Solver) (n : Nat), s.strategy = .random → s.floor n c = .ok addr →
          s.pick n c = .ok addr) ∧
    ∀ (s : Solver) (m : Memory) (size align : Int) (kind : AllocKind), m.chooser = s.chooser →
      (∀ addr, (m.allocate size align kind).1 ≠ .error (.defect (.inadmissibleAddress addr))) ∧
        ∀ reason, (m.allocate size align kind).1 = .error (.noChoice reason) ↔
          (∃ c, m.constraints size align = .ok c) ∧ reason = .noAddress size align ∧
            ∀ addr, ¬m.Fits size align addr := by
  refine ⟨fun c align size => ⟨fun addr => ?_, fun s n draws => ?_, fun addr admitted => ?_⟩,
    fun s m size align kind chooser => m.allocate_of_solver chooser⟩
  · exact (AddressConstraints.admits_iff_exists_satisfies align).symm
  · exact s.optimal_of_draws align draws n
  · obtain ⟨positive, -, below, -⟩ := (AddressConstraints.mem_admitted_iff align).1 admitted
    refine ⟨⟨by omega, by omega⟩, fun s n random drawn => ?_⟩
    exact s.pick_of_floor_eq align random drawn admitted

/-- Between two occupied ranges lies one address for eight bytes, and it is the greatest there is;
the first allocation in memory is not refused. -/
theorem Solver.highest_between_ranges :
    let c : AddressConstraints := ⟨8, 4, 64, [⟨1, 10⟩, ⟨22, 63⟩]⟩
    let s : Solver := ⟨.highest, []⟩
    let m : Memory := { target := .standard, chooser := s.chooser }
    1 ≤ c.align ∧ 0 ≤ c.size ∧ s.Draws c ∧ IsGreatest c.admitted 12 ∧ m.chooser = s.chooser ∧
      ¬∃ reason, (m.allocate 4 4 .heap).1 = .error (.noChoice reason) := by
  intro c s m
  have draws : s.Draws c := nofun
  obtain ⟨-, best, -⟩ := Solver.optimal_and_complete.1 c (by decide) (by decide)
  have picked : s.pick 0 c = .ok 12 := by cbv
  refine ⟨by decide, by decide, draws, ((best s 0 draws).highest rfl 12).1 picked, rfl, ?_⟩
  rintro ⟨reason, failed⟩
  obtain ⟨-, -, nowhere⟩ :=
    ((Solver.optimal_and_complete.2 s m 4 4 .heap rfl).2 reason).1 failed
  exact nowhere 4 ⟨by decide, by decide, ⟨_, rfl, by decide⟩, by simp [m]⟩

/-- Where there are no numbers from zero up to the limit, the random strategy has none to draw, and
fails in another way than for lack of an address. -/
theorem Solver.pick_random_of_limit_zero :
    let c : AddressConstraints := ⟨1, 1, 0, []⟩
    let s : Solver := ⟨.random, []⟩
    1 ≤ c.align ∧ 0 ≤ c.size ∧ c.admitted = ∅ ∧
      s.pick 0 c ≠ .error (.noChoice (.noAddress c.size c.align)) := by
  intro c s
  refine ⟨by decide, by decide, Set.eq_empty_iff_forall_notMem.2 fun addr admitted => ?_, ?_⟩
  · obtain ⟨positive, -, below, -⟩ := (AddressConstraints.mem_admitted_iff (by decide)).1 admitted
    have below : addr + 1 < 0 := below
    omega
  · have drawn : s.pick 0 c = .error (.arithmetic .emptyRange) := rfl
    rw [drawn]
    nofun

end AbstractMachine
