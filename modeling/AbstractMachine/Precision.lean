/-
# AbstractMachine.Precision — numbers with a bounded number of binary digits

A number that is too long to be held exactly is held as the nearest one with few enough binary
digits, and so is a fraction. Halfway between two of them, the one whose last digit is zero is taken.
-/

namespace AbstractMachine

/-- The quotient of a number by a unit, rounded to the nearest integer, a half to the even one. -/
def roundedQuotient (n unit : Int) : Int :=
  let low := n / unit
  let twice := 2 * (n % unit)
  if twice < unit ∨ (twice = unit ∧ low % 2 = 0) then low else low + 1

/-- How many binary digits are held. -/
def heldDigits : Nat := 53

/-- The nearest number that can be held. -/
def held (n : Int) : Int :=
  let unit : Int := (1 : Int) <<< (n.natAbs.log2 + 1 - heldDigits)
  roundedQuotient n unit * unit

/-- The nearest fraction to `n / d` that can be held: an integer, and how many of its binary digits
stand behind the point. -/
def heldFraction (n : Int) (d : Nat) : Int × Nat :=
  let places := heldDigits + d.log2 + 1
  let shifted := n * (1 : Int) <<< places
  let unit : Int := (1 : Int) <<< ((shifted.natAbs / d).log2 + 1 - heldDigits)
  (roundedQuotient shifted (d * unit) * unit, places)

/-- The hundredths in `n / d` as it is held, rounded. -/
def hundredths (n : Int) (d : Nat) : Int :=
  let (k, places) := heldFraction n d
  roundedQuotient (k * 100) ((1 : Int) <<< places)

/-- The rounded quotient is within half a unit of the exact one. -/
theorem roundedQuotient_near {n unit : Int} (h : 0 < unit) :
    2 * (n - roundedQuotient n unit * unit) ≤ unit
      ∧ -unit ≤ 2 * (n - roundedQuotient n unit * unit) := by
  have split := Int.mul_ediv_add_emod n unit
  have low := Int.emod_nonneg n (show unit ≠ 0 by omega)
  have high := Int.emod_lt_of_pos n h
  have rest : n - n / unit * unit = n % unit := by
    rw [Int.mul_comm]; omega
  unfold roundedQuotient
  simp only
  split
  · rw [rest]; omega
  · rw [Int.add_mul, Int.one_mul]; omega

/-- A number halfway between two multiples is rounded to the even one. -/
theorem roundedQuotient_even {n unit : Int} (half : 2 * (n % unit) = unit) :
    roundedQuotient n unit % 2 = 0 := by
  by_cases parity : n / unit % 2 = 0
  · simp [roundedQuotient, half, parity]
  · have odd : ¬(2 * (n % unit) < unit ∨ (2 * (n % unit) = unit ∧ n / unit % 2 = 0)) := by omega
    simp only [roundedQuotient, if_neg odd]
    omega

/-- What has few enough digits is held as it is. -/
theorem held_of_short {n : Int} (h : n.natAbs.log2 < heldDigits) : held n = n := by
  have none : n.natAbs.log2 + 1 - heldDigits = 0 := by omega
  simp [held, none, roundedQuotient]

end AbstractMachine
