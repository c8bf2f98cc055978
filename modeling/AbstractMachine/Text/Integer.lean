/-
# AbstractMachine.Text.Integer — integers read from text

An integer is an optional sign and digits, with single underscores between digits and any blanks
around the whole. Leading zeros are allowed. The digits may be those of any script, but there must
not be too many of them.
-/
import AbstractMachine.Text.Digit
import AbstractMachine.Text.Number

namespace AbstractMachine.Text

/-- Characters that may stand around a number: controls that move the position, and spaces of all
widths. -/
def isBlank (c : Char) : Bool :=
  [(0x9, 0xD), (0x20, 0x20), (0x85, 0x85), (0xA0, 0xA0), (0x1680, 0x1680), (0x2000, 0x200A),
   (0x2028, 0x2029), (0x202F, 0x202F), (0x205F, 0x205F), (0x3000, 0x3000)].any
    fun (first, last) => first ≤ c.toNat && c.toNat ≤ last

/-- The common blanks are blanks. -/
theorem isBlank_of_isWhitespace {c : Char} (h : c.isWhitespace) : isBlank c := by
  simp only [Char.isWhitespace, Bool.or_eq_true, decide_eq_true_eq] at h
  rcases h with ((rfl | rfl) | rfl) | rfl <;> decide

/-- A list without the elements at both ends that pass a test. -/
def trimList (drop : Char → Bool) (cs : List Char) : List Char :=
  ((cs.dropWhile drop).reverse.dropWhile drop).reverse

/-- The number that digits make in a base, behind a number that was read already. `fresh` says that
the last character was no digit, so that a digit has to follow. -/
def digitsFrom (digit : Char → Option Nat) (base n : Nat) : Bool → List Char → Option Nat
  | fresh, [] => if fresh then none else some n
  | fresh, c :: cs =>
      match digit c with
      | some d => digitsFrom digit base (n * base + d) false cs
      | none => if c == '_' && !fresh then digitsFrom digit base n true cs else none

/-- The number that digits make in a base. -/
def natural? (digit : Char → Option Nat) (base : Nat) (cs : List Char) : Option Nat :=
  digitsFrom digit base 0 true cs

/-- The integer that a sign and decimal digits make. -/
def signed? (digit : Char → Option Nat) : List Char → Option Int
  | '-' :: cs => (natural? digit 10 cs).map fun n => -(n : Int)
  | '+' :: cs => (natural? digit 10 cs).map (↑·)
  | cs => (natural? digit 10 cs).map (↑·)

/-- The integer that a text stands for. Zeros in front count as digits. -/
def integer? (s : String) : Option Int :=
  let word := trimList isBlank s.toList
  if (word.filter fun c => (digit? c).isSome).length ≤ maxDigits then signed? digit? word else none

end AbstractMachine.Text
