/-
  What happens during an evaluation, as records of a log.

  The records come in the order of the events.  The first tells the text, the last the outcome;
  between them stand every token that was read, every operator that was applied, with its operands,
  and the literals that had to be rounded.  Tokens and operators are the finer level of detail.
-/
import Calculator.Fault

namespace Calculator

/-- An event of an evaluation. -/
inductive Event where
  /-- The evaluation of a text begins. -/
  | started (text : String)
  /-- A token was read. -/
  | read (token : Token) (position : Nat)
  /-- A literal without an exact value is used. -/
  | rounded (value : Binary64) (position : Nat)
  /-- Both operands of an operator are known, and it is about to be applied. -/
  | applied (op : Operator) (left right : Binary64) (position : Nat)
  /-- Tokens are left over, and ignored. -/
  | ignored (position : Nat)
  /-- The text has a value. -/
  | succeeded (text : String) (value : Binary64)
  /-- The text has a fault. -/
  | failed (text : String) (fault : Fault)
  deriving DecidableEq

/-- Levels of detail. -/
inductive Detail where
  | debug
  | trace
  deriving DecidableEq

namespace Event

/-- The level of detail that an event belongs to. -/
def detail : Event → Detail
  | .read .. | .applied .. => .trace
  | .started _ | .rounded .. | .ignored _ | .succeeded .. | .failed .. => .debug

/-- The record of an event. -/
def message : Event → String
  | .started text => s!"evaluating {Text.quoteText text}"
  | .read token position => s!"lexed {token.describe} at {position}"
  | .rounded value position => s!"literal at {position} rounded to {value}"
  | .applied op left right position => s!"{left} {op.label} {right} at {position}"
  | .ignored position => s!"ignoring input after position {position}"
  | .succeeded text value => s!"{Text.quoteText text} = {value}"
  | .failed text fault => s!"{Text.quoteText text} failed: {fault.message}"

end Event

end Calculator
