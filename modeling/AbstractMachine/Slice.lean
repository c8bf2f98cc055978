/-
# AbstractMachine.Slice — ranges of a list named by integer positions

Layouts name byte ranges by integers, and nothing forces those integers to lie inside the buffer.
The rule for a position is the same everywhere: a position below zero counts back from the end, and
one outside the list is moved to the nearer end. A range that runs backwards is empty. Inside the
list (`0 ≤ start`) this is plain `drop` and `take`.
-/

namespace AbstractMachine.Slice

/-- The place in a list of length `n` that the position `i` stands for. -/
def position (n : Nat) (i : Int) : Nat :=
  min n (if i < 0 then i + n else i).toNat

/-- The element at a position. -/
def get? {α : Type} (xs : List α) (i : Int) : Option α :=
  let j := if i < 0 then i + xs.length else i
  if j < 0 then none else xs[j.toNat]?

/-- The elements from position `start` up to position `stop`. -/
def read {α : Type} (xs : List α) (start stop : Int) : List α :=
  (xs.take (position xs.length stop)).drop (position xs.length start)

/-- Replace the elements from position `start` up to position `stop` by `new`. A range that runs
backwards replaces nothing, and `new` is put in at `start`. -/
def write {α : Type} (xs : List α) (start stop : Int) (new : List α) : List α :=
  let first := position xs.length start
  let last := max first (position xs.length stop)
  xs.take first ++ new ++ xs.drop last

/-- Replace as many elements as `new` has, from position `start` on. -/
def overlay {α : Type} (xs : List α) (start : Int) (new : List α) : List α :=
  write xs start (start + new.length) new

theorem position_of_nonneg {n : Nat} {i : Int} (h : 0 ≤ i) : position n i = min n i.toNat := by
  simp [position, Int.not_lt.mpr h]

theorem get?_of_nonneg {α : Type} (xs : List α) {i : Int} (h : 0 ≤ i) :
    get? xs i = xs[i.toNat]? := by
  simp [get?, Int.not_lt.mpr h]

theorem position_le (n : Nat) (i : Int) : position n i ≤ n :=
  Nat.min_le_left ..

/-- Inside the list a range is read by dropping and taking. -/
theorem read_eq {α : Type} (xs : List α) {start size : Int} (h : 0 ≤ start) (hs : 0 ≤ size) :
    read xs start (start + size) = (xs.drop start.toNat).take size.toNat := by
  obtain ⟨s, rfl⟩ := Int.eq_ofNat_of_zero_le h
  obtain ⟨n, rfl⟩ := Int.eq_ofNat_of_zero_le hs
  have e : position xs.length (((s : Nat) : Int) + ((n : Nat) : Int)) = min xs.length (s + n) := by
    rw [position_of_nonneg (by omega)]
    congr 1
  rw [read, e, position_of_nonneg h, Int.toNat_natCast, Int.toNat_natCast]
  apply List.ext_getElem?
  intro i
  grind

/-- A write that stays inside the list keeps its length. -/
theorem length_overlay {α : Type} (xs new : List α) {start : Int} (h : 0 ≤ start)
    (hfit : start + new.length ≤ xs.length) : (overlay xs start new).length = xs.length := by
  obtain ⟨s, rfl⟩ := Int.eq_ofNat_of_zero_le h
  simp only [overlay, write, position_of_nonneg h,
    position_of_nonneg (show (0 : Int) ≤ (s : Nat) + (new.length : Nat) by omega),
    List.length_append, List.length_take, List.length_drop]
  omega

end AbstractMachine.Slice
