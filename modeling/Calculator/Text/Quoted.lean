/-
  Quoted text.

  Messages show a piece of the input between quotation marks, in such a way that every character
  can be made out.  The mark itself and the backslash get a backslash in front; NUL, tab, line
  feed and carriage return have a letter each; any other character without a picture of its own
  is written as its code point, in hexadecimal between braces.  The rest stands as it is.

  A single character is quoted by apostrophes, a text by double quotation marks, and each form
  leaves the other's mark alone.
-/
import Calculator.Text.Unprintable

namespace Calculator.Text

/-- A code point as it stands in quoted text: backslash, `u`, and the hexadecimal digits, as few
    as will do, between braces. -/
def codePointEscape (n : Nat) : List Char :=
  ['\\', 'u', '\x7b'] ++ Nat.toDigits 16 n ++ ['\x7d']

/-- One character of a text quoted by `mark`. -/
def escape (mark c : Char) : List Char :=
  if c = '\x00' then ['\\', '0']
  else if c = '\t' then ['\\', 't']
  else if c = '\n' then ['\\', 'n']
  else if c = '\r' then ['\\', 'r']
  else if c = mark ∨ c = '\\' then ['\\', c]
  else if isUnprintable c then codePointEscape c.toNat
  else [c]

/-- A text between two marks. -/
def quote (mark : Char) (cs : List Char) : String :=
  String.ofList (mark :: (cs.flatMap (escape mark) ++ [mark]))

/-- A character between apostrophes. -/
def quoteChar (c : Char) : String := quote '\'' [c]

/-- A text between double quotation marks. -/
def quoteText (text : String) : String := quote '"' text.toList

/-! ## The forms -/

example : quoteChar 'é' = "'é'" ∧ quoteChar '"' = "'\"'" := by decide +kernel
example : quoteChar '\'' = "'\\''" ∧ quoteChar '\n' = "'\\n'" := by decide +kernel
example : quoteChar '\u200b' = "'\\u\x7b200b\x7d'" := by decide +kernel
example : quoteText "a'\t\"" = "\"a'\\t\\\"\"" := by decide +kernel

end Calculator.Text
