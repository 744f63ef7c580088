/-
  Writing a number.

  A number is shown by the shortest decimal that reads back as the same number.  Results and
  messages use the positional layout for every magnitude; the diagnostic form of a large literal
  uses the scientific one.  Zero keeps its sign, and the numbers that are not finite have names.
-/
import Calculator.Binary64.Shortest

namespace Calculator.Binary64

/-- A number with its magnitude laid out in the given way. -/
def textWith (layout : Decimal → List Char) : Binary64 → String
  | .finite negative units _ =>
    String.ofList ((if negative then ['-'] else []) ++ layout (shortest units))
  | .infinite negative => if negative then "-inf" else "inf"
  | .nan => "NaN"

/-- The text of a result: digits, at most one point, never an exponent. -/
def text (x : Binary64) : String := x.textWith Decimal.positional

/-- The text of a large literal: one digit before the point, and an exponent. -/
def scientificText (x : Binary64) : String := x.textWith Decimal.scientific

instance : ToString Binary64 := ⟨text⟩

/-! ## Texts -/

example : (zero true).text = "-0" ∧ (zero false).text = "0" := by decide +kernel
end Calculator.Binary64
