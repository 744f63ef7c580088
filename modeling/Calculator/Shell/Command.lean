/-
  Commands of the shell.

  A line asks for one of three things: to leave, for nothing, or for the value of an expression.
  Blank characters around it do not count, and the word that leaves may be in any mixture of cases.
-/
import Calculator.Text.Blank

namespace Calculator.Shell

/-- What a line asks for. -/
inductive Command where
  /-- To leave the shell. -/
  | exit
  /-- Nothing: the line is blank. -/
  | empty
  /-- The value of an expression. -/
  | evaluate (text : String)
  deriving DecidableEq

/-- The command that a line gives. -/
def Command.ofLine (line : String) : Command :=
  let text := Text.trim line.toList
  if text.map Char.toLower = ['e', 'x', 'i', 't'] then .exit
  else if text = [] then .empty
  else .evaluate (String.ofList text)

example : Command.ofLine "  eXiT\n" = .exit ∧ Command.ofLine " \t" = .empty := by decide +kernel
example : Command.ofLine " 1 + 1\n" = .evaluate "1 + 1" := by decide +kernel

end Calculator.Shell
