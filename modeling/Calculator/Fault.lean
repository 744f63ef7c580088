/-
  Faults.

  An expression without a value has a fault: what is wrong, and the place where it was found, as a
  byte offset.  There are three sorts.  The text may hold a character that starts no token; the
  tokens may not form an expression; or a well-formed expression may have no value that is finite.

  A fault is shown on one line, which begins with its place.
-/
import Calculator.Text.Quoted
import Calculator.Token

namespace Calculator

/-- What is wrong with an expression. -/
inductive Cause where
  /-- A character that starts no token. -/
  | strayCharacter (c : Char)
  /-- A token that the grammar does not allow here, with a kind that it does allow. -/
  | unexpected (expected found : TokenKind)
  /-- An opening parenthesis beyond the limit on nesting. -/
  | nestedTooDeep (limit : Nat)
  /-- A divisor that is zero of either sign. -/
  | divisionByZero
  /-- A value that is not finite. -/
  | overflow
  deriving DecidableEq

/-- Something wrong at a place of the text. -/
structure Fault where
  cause : Cause
  position : Nat
  deriving DecidableEq

/-- What is wrong, in words. -/
def Cause.text : Cause → String
  | .strayCharacter c => s!"Unknown character {Text.quoteChar c}."
  | .unexpected expected found => s!"Expected {expected.text}, found {found.text}."
  | .nestedTooDeep limit => s!"Parentheses nested deeper than {limit} levels."
  | .divisionByZero => "Division by zero."
  | .overflow => "Overflow while trying to compute result."

/-- The message for a fault: its place, and what is wrong there. -/
def Fault.message (fault : Fault) : String :=
  s!"Error at position {fault.position}: {fault.cause.text}"

end Calculator
