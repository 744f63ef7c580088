/-
  Arguments of the command line.

      [OPTIONS] [CONTENTS]

      -f, --file          CONTENTS names a file of expressions, one per line
      -s, --strict        tokens left over behind an expression are a fault
          --max-depth N   how deep parentheses may be nested
      -h, --help          print the options
      -V, --version       print the version

  1. **Words** — a word that begins with two hyphens is a long option, and one that begins with a
     single hyphen and goes on is a bundle of short ones; any other word, a lone hyphen and the
     empty word among them, is the contents.  Two hyphens alone make contents of all words behind
     them.  Names have to be complete, and only `--max-depth` has a value, behind `=` or as the
     next word.

  2. **Order** — the words are taken from left to right.  The first offence ends the reading, and so
     does the first request for help or the version, whatever stands behind it.  Each option and the
     contents may be given once.  Only when all words have been read is `--file` found to lack the
     contents.
-/
import Calculator.Text.Digits

namespace Calculator.CommandLine

/-- What the command line says about an evaluation. -/
structure Arguments where
  file : Bool
  strict : Bool
  maxDepth : Option Nat
  contents : Option String
  deriving DecidableEq

/-- What the command line asks for. -/
inductive Request where
  | work (arguments : Arguments)
  | version
  | help
  deriving DecidableEq

/-- What is wrong with a command line. -/
inductive Offence where
  /-- A word that is no option, or contents beyond the first. -/
  | unexpected (word : String)
  /-- An option that takes no value has one. -/
  | valueGiven (option : String)
  /-- `--max-depth` has no value. -/
  | valueMissing
  /-- The value of `--max-depth` is not a number of 64 bits. -/
  | valueInvalid (value : String)
  /-- An option is given twice. -/
  | repeated (option : String)
  /-- `--file` is given without the contents. -/
  | contentsMissing
  deriving DecidableEq

/-- What is wrong, in words. -/
def Offence.text : Offence → String
  | .unexpected word => s!"unexpected argument '{word}' found"
  | .valueGiven option => s!"unexpected value for '{option}' found; no more were expected"
  | .valueMissing => "a value is required for '--max-depth <MAX_DEPTH>' but none was supplied"
  | .valueInvalid value => s!"invalid value '{value}' for '--max-depth <MAX_DEPTH>'"
  | .repeated option => s!"the argument '{option}' cannot be used multiple times"
  | .contentsMissing => "the following required arguments were not provided:\n  <CONTENTS>"

/-- The options without a value. -/
inductive Flag where
  | file
  | strict
  | version
  | help
  deriving DecidableEq

namespace Flag

/-- The name of an option as a word of its own. -/
def long : Flag → String
  | .file => "--file"
  | .strict => "--strict"
  | .version => "--version"
  | .help => "--help"

/-- The option that a word is. -/
def ofLong? (word : String) : Option Flag :=
  [file, strict, version, help].find? fun flag => flag.long = word

/-- The option that a character of a bundle is. -/
def ofShort? (c : Char) : Option Flag :=
  if c = 'f' then some .file
  else if c = 's' then some .strict
  else if c = 'V' then some .version
  else if c = 'h' then some .help
  else none

end Flag

/-- Why the reading of the words ends before the last of them. -/
inductive Stop where
  | offence (offence : Offence)
  | request (request : Request)

namespace Arguments

/-- Nothing said yet. -/
def unset : Arguments := ⟨false, false, none, none⟩

/-! ## One thing said -/

/-- Notes an option without a value. -/
def setFlag (arguments : Arguments) : Flag → Except Stop Arguments
  | .file =>
    if arguments.file then .error (.offence (.repeated Flag.file.long))
    else .ok { arguments with file := true }
  | .strict =>
    if arguments.strict then .error (.offence (.repeated Flag.strict.long))
    else .ok { arguments with strict := true }
  | .version => .error (.request .version)
  | .help => .error (.request .help)

/-- Notes `--max-depth` with its value, a number of at most 64 bits. -/
def setMaxDepth (arguments : Arguments) (value : String) : Except Stop Arguments :=
  match (Text.whole? value.toList).filter (· < UInt64.size) with
  | none => .error (.offence (.valueInvalid value))
  | some depth =>
    if arguments.maxDepth.isSome then .error (.offence (.repeated "--max-depth"))
    else .ok { arguments with maxDepth := some depth }

/-- Notes the contents. -/
def setContents (arguments : Arguments) (word : String) : Except Stop Arguments :=
  if arguments.contents.isSome then .error (.offence (.unexpected word))
  else .ok { arguments with contents := some word }

/-- Notes the short options of a bundle, one after the other. -/
def setBundle (arguments : Arguments) (bundle : List Char) : Except Stop Arguments :=
  bundle.foldlM (fun arguments c =>
    match Flag.ofShort? c with
    | some flag => arguments.setFlag flag
    | none => .error (.offence (.unexpected (String.ofList ['-', c])))) arguments

end Arguments

/-! ## Words -/

/-- What a word is by its form. -/
inductive Word where
  /-- Two hyphens: all that follows is contents. -/
  | separator
  /-- A long option by its name, and its value if there is one behind `=`. -/
  | long (name : String) (value : Option String)
  /-- A bundle of short options. -/
  | bundle (options : List Char)
  /-- Anything else. -/
  | plain (word : String)

/-- The form of a word. -/
def Word.ofString (word : String) : Word :=
  match word.toList with
  | ['-', '-'] => .separator
  | '-' :: '-' :: body =>
    let name := String.ofList ('-' :: '-' :: body.takeWhile (· ≠ '='))
    match body.dropWhile (· ≠ '=') with
    | [] => .long name none
    | _ :: value => .long name (some (String.ofList value))
  | '-' :: c :: more => .bundle (c :: more)
  | _ => .plain word

/-- Notes the words from left to right. -/
def Arguments.read (arguments : Arguments) : List String → Except Stop Arguments
  | [] => .ok arguments
  | word :: rest =>
    match Word.ofString word with
    | .separator => rest.foldlM setContents arguments
    | .bundle options => do
      let arguments ← arguments.setBundle options
      arguments.read rest
    | .plain word => do
      let arguments ← arguments.setContents word
      arguments.read rest
    | .long name value =>
      if name = "--max-depth" then
        match value, rest with
        | some value, rest => do
          let arguments ← arguments.setMaxDepth value
          arguments.read rest
        | none, [] => .error (.offence .valueMissing)
        | none, next :: rest =>
          match Word.ofString next with
          | .plain value => do
            let arguments ← arguments.setMaxDepth value
            arguments.read rest
          | .separator | .long _ _ | .bundle _ => .error (.offence .valueMissing)
      else
        match Flag.ofLong? name, value with
        | none, _ => .error (.offence (.unexpected name))
        | some flag, some _ => .error (.offence (.valueGiven flag.long))
        | some flag, none => do
          let arguments ← arguments.setFlag flag
          arguments.read rest

/-- What the words of a command line ask for, or what is wrong with them. -/
def Request.ofWords (words : List String) : Except Offence Request :=
  match Arguments.unset.read words with
  | .error (.offence offence) => .error offence
  | .error (.request request) => .ok request
  | .ok arguments =>
    if arguments.file ∧ arguments.contents.isNone then .error .contentsMissing
    else .ok (.work arguments)

end Calculator.CommandLine
