/-
  Integer literals.

  A literal is a run of digits of any length.  One that fits into 64 bits keeps its exact value;
  a longer one is kept as the nearest number, which is infinite when the run is too long for any.

  Either way the value that is computed with is the number nearest to what the digits say, because
  converting the exact value rounds in the same way.
-/
import Calculator.Binary64.Numeral

namespace Calculator

/-- The value of an integer literal. -/
inductive Literal where
  | exact (value : UInt64)
  | rounded (value : Binary64)
  deriving DecidableEq

namespace Literal

/-- Reads a literal.  Digits, also with a plus sign, are exact as long as they fit into 64 bits.
    Any other numeral is rounded, and what is no numeral at all counts as infinite. -/
def ofDigits (text : List Char) : Literal :=
  match Text.whole? text with
  | some n => if h : n < UInt64.size then .exact (UInt64.ofNatLT n h) else ofNumeral text
  | none => ofNumeral text
where
  /-- A literal that has no exact value. -/
  ofNumeral (text : List Char) : Literal :=
    .rounded ((Binary64.ofText? text).getD (.infinite false))

/-- The number that a literal stands for. -/
def toBinary64 : Literal → Binary64
  | .exact value => .ofNat value.toNat
  | .rounded value => value

example : ofDigits ['0', '0', '7'] = .exact 7 := by decide +kernel
example : ofDigits [] = .rounded (.infinite false) := by decide +kernel

end Literal

end Calculator
