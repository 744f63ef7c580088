/-
  A session of the shell.

  The shell prompts, reads a line and answers it, and does so until it is told to leave or the input
  ends.  The answer to an expression is one line, its value or its fault, and a fault does not end
  the session.  At the end of the input the shell finishes the line of the last prompt.

  Each answer depends on its own line and on the settings, and nothing is read beyond the line that
  ends the session.
-/
import Calculator.Evaluation
import Calculator.Shell.Command
import Calculator.Shell.Output
import Calculator.Text.Lines

namespace Calculator.Shell

/-- The prompt before every line. -/
def prompt : String := "Enter an expression (or \"exit\"): "

/-- The answer to an expression: its value or its fault, as one line. -/
def answer (settings : Settings) (text : String) : String :=
  match evaluateWith settings text with
  | .ok value => s!"Result: {value}\n"
  | .error fault => s!"{fault.message}\n"

/-- Writes the answer to an expression. -/
def writeAnswer (settings : Settings) (text : String) : Action Unit := write (answer settings text)

/-- Answers a line, and tells whether the session goes on. -/
def respond (settings : Settings) (line : ByteArray) : Action Bool :=
  match String.fromUTF8? line with
  | none => throw .undecodable
  | some text =>
    match Command.ofLine text with
    | .exit => pure false
    | .empty => pure true
    | .evaluate expression => do
      writeAnswer settings expression
      pure true

/-- Goes on with what has been read: a line, or nothing more, and then the line of the last prompt is
    ended.  Tells whether the session goes on. -/
def proceed (settings : Settings) : Option ByteArray → Action Bool
  | some line => respond settings line
  | none => do
    write "\n"
    pure false

/-- A session over the given lines of input. -/
def session (settings : Settings) : List ByteArray → Action Unit
  | [] => do
    write prompt
    discard (proceed settings none)
  | line :: rest => do
    write prompt
    if ← proceed settings (some line) then session settings rest

/-- The lines of an input, which end at line feeds. -/
def inputLines (input : ByteArray) : List ByteArray :=
  (Text.lines 10 input.data.toList).map fun line => ⟨line.toArray⟩

/-- A session over an input. -/
def run (settings : Settings) (input : ByteArray) : Action Unit :=
  session settings (inputLines input)

/-- Writes the answers to a list of expressions. -/
def writeAnswers (settings : Settings) (texts : List String) : Action Unit :=
  texts.forM (writeAnswer settings)

end Calculator.Shell
