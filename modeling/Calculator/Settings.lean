/-
  Settings of an evaluation.

  Two things can be chosen: how deep parentheses may be nested, and what becomes of tokens that are
  left over behind a complete expression.
-/

namespace Calculator

/-- What becomes of tokens behind a complete expression. -/
inductive Trailing where
  /-- They are left unread, so that `1 + 2 )` is three. -/
  | ignored
  /-- The first of them is a fault. -/
  | rejected
  deriving DecidableEq

/-- The settings of one evaluation. -/
structure Settings where
  /-- How many parentheses may be open at once. -/
  maxDepth : Nat := 256
  trailing : Trailing := .ignored
  deriving DecidableEq

instance : Inhabited Settings := ⟨{}⟩

end Calculator
