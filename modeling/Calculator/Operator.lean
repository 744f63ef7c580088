/-
  The four operators.

  Each is written as one character.  Sums and products are the two levels of precedence: a product
  binds tighter than a sum, and operators of one level group from the left.
-/

namespace Calculator

/-- Precedence: operators of one level form chains, and a chain of products is an operand of a
    chain of sums. -/
inductive Level where
  | sum
  | product
  deriving DecidableEq

/-- The binary operators. -/
inductive Operator where
  | add
  | sub
  | mul
  | div
  deriving DecidableEq

namespace Operator

/-- The character that an operator is written as. -/
def symbol : Operator → Char
  | .add => '+'
  | .sub => '-'
  | .mul => '*'
  | .div => '/'

/-- The operator that a character writes. -/
def ofChar? (c : Char) : Option Operator :=
  if c = '+' then some .add
  else if c = '-' then some .sub
  else if c = '*' then some .mul
  else if c = '/' then some .div
  else none

/-- The level of precedence of an operator. -/
def level : Operator → Level
  | .add | .sub => .sum
  | .mul | .div => .product

/-- The name of an operator in diagnostics. -/
def label : Operator → String
  | .add => "Add"
  | .sub => "Sub"
  | .mul => "Mul"
  | .div => "Div"

/-- A character writes an operator exactly when it is the operator's own. -/
theorem ofChar?_eq_some_iff {c : Char} {op : Operator} :
    ofChar? c = some op ↔ c = op.symbol := by
  constructor
  · intro h
    simp only [ofChar?] at h
    split at h
    · next hc => cases h; exact hc
    split at h
    · next hc => cases h; exact hc
    split at h
    · next hc => cases h; exact hc
    split at h
    · next hc => cases h; exact hc
    · cases h
  · rintro rfl
    cases op <;> rfl

end Operator

end Calculator
