/-
  Evaluating a text.

  Each evaluation starts from the text alone, with a fresh cursor and a fresh parser, so that one
  evaluation never depends on another.  `run` keeps the record of it; `evaluateWith` is the outcome
  without the record, and `evaluate` the outcome under the usual settings.
-/
import Calculator.Parser

namespace Calculator

/-- What comes of an evaluation: a value or a fault, and the record of how it came about. -/
structure Evaluation where
  outcome : Except Fault Binary64
  log : List Event

namespace Evaluation

/-- Evaluates a text, and keeps the record.  When the first piece of the text is a fault, there is
    no parser yet, and the record ends with the announcement of the text. -/
def run (settings : Settings) (text : String) : Evaluation :=
  match Parser.start settings (Cursor.ofText text) with
  | .error fault => ⟨.error fault, [.started text]⟩
  | .ok parser =>
    let log := fun (last : Parser) (ending : Event) =>
      .started text :: last.events.toList ++ [ending]
    match Parser.parse parser with
    | .ok value last => ⟨.ok value, log last (.succeeded text value)⟩
    | .error fault last => ⟨.error fault, log last (.failed text fault)⟩

end Evaluation

/-- The value of a text, or its first fault. -/
def evaluateWith (settings : Settings) (text : String) : Except Fault Binary64 :=
  (Evaluation.run settings text).outcome

/-- The value of a text under the usual settings. -/
def evaluate (text : String) : Except Fault Binary64 := evaluateWith {} text

end Calculator
