/-
  The program as a whole.

  With contents on the command line the program evaluates them line by line, or those of the file
  that they name: values go to the output, faults to the error output, and the exit status says
  whether there was a fault.  Without contents it runs the shell on its input.

  `run` is the program as a function: from the words of the command line, the bytes of the input and
  the contents of the files to what is written and the exit status.
-/
import Calculator.CommandLine.Arguments
import Calculator.Shell.Session

namespace Calculator.CommandLine

/-- What the program leaves behind: its exit status and the bytes of its two outputs. -/
structure Outcome where
  status : UInt8
  output : ByteArray
  errors : ByteArray

/-! ## Texts -/

/-- The name of the program and its version. -/
def versionText : String := "tally 0.1.0\n"

/-- How the program is called. -/
def usageText : String := "Usage: tally [OPTIONS] [CONTENTS]\n"

/-- What the program does, and its options. -/
def helpText : String :=
  "tally evaluates integer arithmetic expressions using `+ - * / ( )`.\n\n" ++ usageText ++
  "\nArguments:\n" ++
  "  [CONTENTS]  An expression to evaluate, or a file path with `--file`\n" ++
  "\nOptions:\n" ++
  "  -f, --file                   Tells tally to read expressions, one per line, from the file " ++
  "named by `contents`\n" ++
  "  -s, --strict                 Reject input left over after a complete expression\n" ++
  "      --max-depth <MAX_DEPTH>  Maximum depth of nested parentheses [default: 256]\n" ++
  "  -h, --help                   Print help\n" ++
  "  -V, --version                Print version\n"

/-- What is wrong with the command line, and how to find out what is right. -/
def Offence.message (offence : Offence) : String :=
  s!"error: {offence.text}\n\n{usageText}\nFor more information, try '--help'.\n"

/-- The message for a file that cannot be read as text. -/
def unreadableMessage (path : String) : String :=
  s!"Failed to read the input file '{path}'. Perhaps this file does not exist?\n"

/-! ## Work -/

/-- The settings that the command line chooses. -/
def Arguments.settings (arguments : Arguments) : Settings where
  maxDepth := arguments.maxDepth.getD ({} : Settings).maxDepth
  trailing := if arguments.strict then .rejected else .ignored

/-- The expressions of a text: its lines without the blank characters around them, and without the
    lines that are then empty. -/
def expressions (text : String) : List String :=
  (((Text.lines '\n' text.toList).map Text.trim).filter (· ≠ [])).map String.ofList

/-- Adds the value or the fault of one more expression. -/
def Outcome.add (outcome : Outcome) : Except Fault Binary64 → Outcome
  | .ok value => { outcome with output := outcome.output ++ (s!"{value}\n").toUTF8 }
  | .error fault =>
    { outcome with status := 1, errors := outcome.errors ++ (s!"{fault.message}\n").toUTF8 }

/-- Evaluates the expressions of a text, one after the other. -/
def evaluateLines (settings : Settings) (text : String) : Outcome :=
  ((expressions text).map (evaluateWith settings)).foldl Outcome.add ⟨0, .empty, .empty⟩

/-- What the shell leaves behind: what it has written, and the message for the failure that has ended
    its work, if one has. -/
def Outcome.ofShell (output : ByteArray) : Except Shell.Failure Unit → Outcome
  | .ok () => ⟨0, output, .empty⟩
  | .error failure => ⟨1, output, (s!"{failure.message}\n").toUTF8⟩

/-- Runs the shell on an input. -/
def runShell (settings : Settings) (input : ByteArray) : Outcome :=
  match Shell.run settings input (.empty none) with
  | .ok () output => .ofShell output.bytes (.ok ())
  | .error failure output => .ofShell output.bytes (.error failure)

/-- Does what the arguments say. -/
def work (arguments : Arguments) (input : ByteArray) (readFile : String → Option ByteArray) :
    Outcome :=
  match arguments.contents with
  | none => runShell arguments.settings input
  | some contents =>
    if arguments.file then
      match (readFile contents).bind String.fromUTF8? with
      | none => ⟨1, .empty, (unreadableMessage contents).toUTF8⟩
      | some text => evaluateLines arguments.settings text
    else evaluateLines arguments.settings contents

/-- The program, from the words of its command line on.  `readFile` gives the bytes of a file. -/
def run (words : List String) (input : ByteArray) (readFile : String → Option ByteArray) :
    Outcome :=
  match Request.ofWords words with
  | .error offence => ⟨2, .empty, offence.message.toUTF8⟩
  | .ok .version => ⟨0, versionText.toUTF8, .empty⟩
  | .ok .help => ⟨0, helpText.toUTF8, .empty⟩
  | .ok (.work arguments) => work arguments input readFile

end Calculator.CommandLine
