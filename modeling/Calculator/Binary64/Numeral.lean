/-
  Reading a number.

  A numeral is an optional sign and then one of two things: a name, `inf`, `infinity` or `nan`, in
  any mixture of cases; or digits with at most one point among them, at least one digit in all,
  and an optional exponent, `e` or `E` with a signed run of digits.  It stands alone: no blank and
  no separator belongs to it.

  Its value is the exact decimal, rounded once.  Nothing is out of range: too large is infinite,
  too small is zero.
-/
import Calculator.Binary64.Rounding
import Calculator.Decimal

namespace Calculator.Binary64

/-! ## From an exact decimal -/

/-- The power of ten from which on a decimal is decided: a coefficient other than zero times 10⁴⁰⁰
    is infinite, and one of `n` bits divided by 10⁴⁰⁰⁺ⁿ is zero. -/
def decimalReach : Nat := 400

/-- The number nearest to a decimal.  Powers beyond `decimalReach` give the same infinity or zero
    as `decimalReach` does, so no larger power is ever computed. -/
def ofDecimal (negative : Bool) (d : Decimal) : Binary64 :=
  match d.exponent with
  | .ofNat e => ofQuotient negative (d.coefficient * Nat.pow 10 (min e decimalReach) * one) 1
  | .negSucc k =>
    ofQuotient negative (d.coefficient * one)
      (Nat.pow 10 (min (k + 1) (decimalReach + d.coefficient.log2)))

/-! ## From text -/

/-- An optional sign, and the text behind it. -/
def takeSign : List Char → Bool × List Char
  | '-' :: rest => (true, rest)
  | '+' :: rest => (false, rest)
  | rest => (false, rest)

/-- The exponent behind the digits: none at all, or a mark and a signed run of digits. -/
def exponent? : List Char → Option Int
  | [] => some 0
  | mark :: rest =>
    if mark = 'e' ∨ mark = 'E' then
      let (negative, run) := takeSign rest
      (Text.run? run).map fun n => if negative then -(n : Int) else n
    else none

/-- The digits behind a point, if a point comes first, and the text behind them. -/
def takeFraction : List Char → List Char × List Char
  | '.' :: rest => (rest.takeWhile Char.isDigit, rest.dropWhile Char.isDigit)
  | rest => ([], rest)

/-- Digits, point and exponent, read as an exact decimal. -/
def decimal? (text : List Char) : Option Decimal := do
  let whole := text.takeWhile Char.isDigit
  let (fraction, rest) := takeFraction (text.dropWhile Char.isDigit)
  let coefficient ← Text.run? (whole ++ fraction)
  let exponent ← exponent? rest
  pure ⟨coefficient, exponent - fraction.length⟩

/-- The number that a text denotes, if it is a numeral. -/
def ofText? (text : List Char) : Option Binary64 :=
  let (negative, body) := takeSign text
  let name := String.ofList (body.map Char.toLower)
  if name = "inf" ∨ name = "infinity" then some (.infinite negative)
  else if name = "nan" then some .nan
  else (decimal? body).map (ofDecimal negative)

/-! ## Accepted and refused -/

example : decimal? ['1', '.', '5', 'e', '-', '3'] = some ⟨15, -4⟩ := by decide +kernel
example : decimal? ['.', '5'] = some ⟨5, -1⟩ := by decide +kernel
example : decimal? ['5', '.'] = some ⟨5, 0⟩ := by decide +kernel
example : decimal? ['.'] = none ∧ decimal? ['1', 'e'] = none ∧ decimal? ['1', ' '] = none := by
  decide +kernel
example : ofText? ['-', 'I', 'n', 'F'] = some (.infinite true) := by decide +kernel

end Calculator.Binary64
