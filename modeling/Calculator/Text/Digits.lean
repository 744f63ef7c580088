/-
  Whole numbers in decimal.

  A run of ASCII digits is a number, however long it is and however many zeros lead it.  `whole?`
  reads such a run with at most one plus sign in front, and nothing else: no minus, no blank, no
  separator, and not the empty run.
-/

namespace Calculator.Text

/-- The digits of a number, without leading zeros. -/
def digits (n : Nat) : List Char := Nat.toDigits 10 n

/-- The number that a run of digits denotes. -/
def ofDigits (run : List Char) : Nat := Nat.ofDigitChars 10 run 0

/-- A run of at least one digit, read as a number. -/
def run? (run : List Char) : Option Nat :=
  if run ≠ [] ∧ run.all Char.isDigit then some (ofDigits run) else none

/-- A number, read from digits with an optional plus sign. -/
def whole? : List Char → Option Nat
  | '+' :: run => run? run
  | run => run? run

/-- What is written is read. -/
theorem ofDigits_digits (n : Nat) : ofDigits (digits n) = n := by
  simp [ofDigits, digits]

/-- Zeros in front do not count. -/
theorem ofDigits_cons_zero (run : List Char) : ofDigits ('0' :: run) = ofDigits run := by
  simp [ofDigits, Nat.ofDigitChars_cons]

example : whole? ['0', '0', '7'] = some 7 ∧ whole? ['+', '7'] = some 7 := by decide
example : whole? ['+'] = none ∧ whole? ['+', '+', '7'] = none := by decide
example : whole? ['-', '7'] = none ∧ whole? [] = none := by decide

end Calculator.Text
