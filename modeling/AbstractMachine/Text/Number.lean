/-
# AbstractMachine.Text.Number — integers as text

Decimal text is `toString`, and there is a limit to how long it may be. Hexadecimal text is for
addresses: lower-case digits behind `0x`, with the sign of a negative number in front. It has no
limit.
-/

namespace AbstractMachine.Text

/-! ## Decimal -/

/-- How many digits a number may have in decimal text. -/
def maxDigits : Nat := 4300

/-- Whether an integer has few enough digits to be written in decimal. -/
def isShort (n : Int) : Bool :=
  n.natAbs < Nat.pow 10 maxDigits

/-- An integer in decimal, if it is short enough. -/
def decimal? (n : Int) : Option String :=
  if isShort n then some (toString n) else none

/-- What is closer to zero than a short integer is short. -/
theorem isShort_of_natAbs_le {m n : Int} (h : m.natAbs ≤ n.natAbs) (short : isShort n) :
    isShort m := by
  simp only [isShort, decide_eq_true_eq] at short ⊢
  exact Nat.lt_of_le_of_lt h short

theorem decimal?_of_isShort {n : Int} (short : isShort n) : decimal? n = some (toString n) := by
  rw [decimal?, if_pos short]

theorem decimal?_eq_none_iff {n : Int} : decimal? n = none ↔ isShort n = false := by
  simp [decimal?]

/-! ## Hexadecimal -/

/-- The digits of a number in base sixteen, padded with zeros to a width. -/
def hexDigits (width n : Nat) : String :=
  let digits := Nat.toDigits 16 n
  String.ofList (List.replicate (width - digits.length) '0' ++ digits)

/-- An integer in base sixteen: `0x1f`, `-0x8`. -/
def hex (n : Int) : String :=
  (if n < 0 then "-0x" else "0x") ++ hexDigits 0 n.natAbs

end AbstractMachine.Text
