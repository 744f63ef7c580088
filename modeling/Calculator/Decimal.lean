/-
  Decimals, and the two ways to lay them out.

  A decimal is a whole coefficient and a power of ten.  The positional layout writes it with a
  point, padded by zeros on whichever side the power of ten asks for, and never with an exponent;
  an integral value then has no point at all.  The scientific layout has one digit before the
  point and the exponent behind an `e`; a single digit needs no point.
-/
import Calculator.Text.Digits

namespace Calculator

/-- `coefficient` times ten to the power of `exponent`. -/
structure Decimal where
  coefficient : Nat
  exponent : Int
  deriving DecidableEq

namespace Decimal

/-- Digits and zeros, with a point where the exponent puts it. -/
def positional (d : Decimal) : List Char :=
  let ds := Text.digits d.coefficient
  match d.exponent with
  | .ofNat zeros => ds ++ List.replicate zeros '0'
  | .negSucc k =>
    let places := k + 1
    if places < ds.length then
      ds.take (ds.length - places) ++ '.' :: ds.drop (ds.length - places)
    else
      '0' :: '.' :: (List.replicate (places - ds.length) '0' ++ ds)

/-- One digit, a point and the other digits, and the exponent. -/
def scientific (d : Decimal) : List Char :=
  let ds := Text.digits d.coefficient
  let fraction := match ds.drop 1 with
    | [] => []
    | rest => '.' :: rest
  ds.take 1 ++ fraction ++ 'e' :: (toString (d.exponent + (ds.length - 1 : Nat))).toList

example : String.ofList (positional ⟨12, 3⟩) = "12000" := by decide +kernel
example : String.ofList (positional ⟨125, -1⟩) = "12.5" := by decide +kernel
example : String.ofList (positional ⟨125, -4⟩) = "0.0125" := by decide +kernel
example : String.ofList (scientific ⟨125, 18⟩) = "1.25e20" := by decide +kernel
example : String.ofList (scientific ⟨1, 20⟩) = "1e20" := by decide +kernel

end Decimal

end Calculator
