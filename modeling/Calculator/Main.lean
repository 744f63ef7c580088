/-
  The command line.

  This layer only moves bytes: it reads the file or the input that `CommandLine.run` and `Shell`
  are to work on, and writes what they answer.  The steps of the shell are taken one by one, so that
  each prompt and each answer is seen before the next line is read.
-/
import Calculator.CommandLine.Program

namespace Calculator

/-- Reads up to the end of a line, or of the input.  Nothing is left of the input if nothing is
    read. -/
partial def readLine (input : IO.FS.Stream) (line : ByteArray) : IO ByteArray := do
  let bytes ← input.read 1
  if bytes.isEmpty then pure line
  else if bytes.data = #[10] then pure (line ++ bytes)
  else readLine input (line ++ bytes)

/-- Does what an action of the shell does, and puts out what it writes. -/
def perform {α : Type} (output : IO.FS.Stream) (action : Shell.Action α) :
    ExceptT Shell.Failure IO α := do
  let (value, written) := match action (.empty none) with
    | .ok value written => (Except.ok value, written)
    | .error failure written => (Except.error failure, written)
  output.write written.bytes
  output.flush
  value

/-- Drives the shell until it is told to leave, breaks off, or the input ends. -/
partial def converse (settings : Settings) (input output : IO.FS.Stream) :
    ExceptT Shell.Failure IO Unit := do
  perform output (Shell.write Shell.prompt)
  let line ← readLine input .empty
  let goesOn ← perform output (Shell.proceed settings (if line.isEmpty then none else some line))
  if goesOn then converse settings input output

/-- The bytes of a file, if it can be read. -/
def readFile? (path : String) : IO (Option ByteArray) := do
  try
    pure (some (← IO.FS.readBinFile path))
  catch _ =>
    pure none

/-- The file that a command line names, if it names one and the file can be read. -/
def namedFile? (words : List String) : IO (Option ByteArray) :=
  match CommandLine.Request.ofWords words with
  | .ok (.work { file := true, contents := some path, .. }) => readFile? path
  | _ => pure none

end Calculator

open Calculator in
/-- Runs the program on the words of its command line. -/
def main (words : List String) : IO UInt32 := do
  let output ← IO.getStdout
  let outcome ← match CommandLine.Request.ofWords words with
    | .ok (.work arguments@{ contents := none, .. }) => do
      let ended ← (converse arguments.settings (← IO.getStdin) output).run
      pure (CommandLine.Outcome.ofShell .empty ended)
    | _ => do
      let file ← namedFile? words
      pure (CommandLine.run words .empty fun _ => file)
  output.write outcome.output
  (← IO.getStderr).write outcome.errors
  pure outcome.status.toUInt32
