/-
# AbstractMachine.Text.Digit — decimal digits of all scripts

Every script with decimal digits has ten of them in a row, the zero first. A table of the zeros
therefore says which characters are digits, and what they count for.
-/

namespace AbstractMachine.Text

/-- The zeros of all scripts. -/
def zeros : List Nat :=
  [0x30, 0x660, 0x6F0, 0x7C0, 0x966, 0x9E6, 0xA66, 0xAE6, 0xB66, 0xBE6, 0xC66, 0xCE6, 0xD66,
   0xDE6, 0xE50, 0xED0, 0xF20, 0x1040, 0x1090, 0x17E0, 0x1810, 0x1946, 0x19D0, 0x1A80, 0x1A90,
   0x1B50, 0x1BB0, 0x1C40, 0x1C50, 0xA620, 0xA8D0, 0xA900, 0xA9D0, 0xA9F0, 0xAA50, 0xABF0, 0xFF10,
   0x104A0, 0x10D30, 0x11066, 0x110F0, 0x11136, 0x111D0, 0x112F0, 0x11450, 0x114D0, 0x11650,
   0x116C0, 0x11730, 0x118E0, 0x11950, 0x11C50, 0x11D50, 0x11DA0, 0x16A60, 0x16AC0, 0x16B50,
   0x1D7CE, 0x1D7D8, 0x1D7E2, 0x1D7EC, 0x1D7F6, 0x1E140, 0x1E2F0, 0x1E950, 0x1FBF0]

/-- What a character counts for as a decimal digit. -/
def digit? (c : Char) : Option Nat :=
  (zeros.find? fun first => first ≤ c.toNat && c.toNat < first + 10).map (c.toNat - ·)

/-- The common digits are digits, and count for what they say. -/
theorem digit?_of_isDigit {c : Char} (h : c.isDigit) : digit? c = some (c.toNat - 0x30) := by
  have range : 0x30 ≤ c.toNat ∧ c.toNat < 0x30 + 10 := by
    simp only [Char.isDigit, Bool.and_eq_true, decide_eq_true_eq, ge_iff_le] at h
    have low : '0'.toNat ≤ c.toNat := h.1
    have high : c.toNat ≤ '9'.toNat := h.2
    simp at low high
    omega
  simp [digit?, zeros, range]

/-- What a character counts for as a digit in a base up to sixteen, written in the common digits and
letters of either case. -/
def digitIn? (base : Nat) (c : Char) : Option Nat :=
  ("0123456789abcdef".toList.findIdx? (· == c.toLower)).filter (· < base)

/-- A digit counts for less than ten. -/
theorem digit?_lt_ten {c : Char} {n : Nat} (h : digit? c = some n) : n < 10 := by
  simp only [digit?, Option.map_eq_some_iff] at h
  obtain ⟨first, found, rfl⟩ := h
  have := List.find?_some found
  simp only [Bool.and_eq_true, decide_eq_true_eq] at this
  omega

end AbstractMachine.Text
