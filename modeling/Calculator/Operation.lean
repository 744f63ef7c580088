/-
  Applying an operator.

  A result has to be finite.  Whatever is not — a sum or product beyond the range, and likewise a
  literal too long for any number — is an overflow at the place of the operator or literal.  A
  division by zero is refused before it is made, whichever sign the zero has.

  So operands are finite whenever results are, and the cases of `Binary64.add` and the others that
  start from infinities are never met while an expression is evaluated.
-/
import Calculator.Binary64.Arithmetic
import Calculator.Fault

namespace Calculator

/-- The number itself if it is finite, and an overflow at the given place otherwise. -/
def Binary64.checked (x : Binary64) (position : Nat) : Except Fault Binary64 :=
  if x.isFinite then .ok x else .error ⟨.overflow, position⟩

/-- Combines two operands of the operator at a place of the text. -/
def Operator.apply (op : Operator) (left right : Binary64) (position : Nat) :
    Except Fault Binary64 :=
  match op with
  | .add => (left.add right).checked position
  | .sub => (left.sub right).checked position
  | .mul => (left.mul right).checked position
  | .div =>
    if right.isZero then .error ⟨.divisionByZero, position⟩
    else (left.div right).checked position

/-- A number that passes the check is finite and unchanged. -/
theorem Binary64.checked_eq_ok_iff {x y : Binary64} {position : Nat} :
    x.checked position = .ok y ↔ x.isFinite = true ∧ x = y := by
  simp only [checked]
  split <;> simp_all

/-- Whatever an operator gives is finite. -/
theorem Operator.isFinite_of_apply_eq_ok {op : Operator} {x y z : Binary64} {position : Nat}
    (h : op.apply x y position = .ok z) : z.isFinite = true := by
  cases op <;> simp only [apply] at h
  case div =>
    split at h
    · cases h
    · obtain ⟨hf, rfl⟩ := Binary64.checked_eq_ok_iff.1 h
      exact hf
  all_goals
    obtain ⟨hf, rfl⟩ := Binary64.checked_eq_ok_iff.1 h
    exact hf

end Calculator
