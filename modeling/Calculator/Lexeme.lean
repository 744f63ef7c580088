/-
  Lexemes: the pieces that a text falls into.

  Problem: cut a text into tokens and say where each one stands.  Blank characters are skipped; a
  digit begins a literal that takes in every digit behind it; each operator and parenthesis is a
  token by itself; any other character is a stray, a piece of its own that starts no token.  A stray
  does not stop the scan: what follows it is cut up as if it stood alone.

  1. **Program** — `scan`: one pass over the characters that carries the byte offset of the next
     one.  It calls itself on what lies behind the piece it has just cut off, which is shorter.

  2. **No context** — the scan knows nothing but the offset and the characters to come, and the
     offset only moves the pieces (`scan_add`).  So a text can be scanned from any of its pieces on.
-/
import Calculator.Text.Blank
import Calculator.Text.Offset
import Calculator.Token

namespace Calculator

/-- What a piece of the text is. -/
inductive Reading where
  | token (token : Token)
  | stray (c : Char)
  deriving DecidableEq

/-- A piece of the text, from the byte offset `start` up to the byte offset `stop`. -/
structure Lexeme where
  start : Nat
  stop : Nat
  reading : Reading
  deriving DecidableEq

namespace Lexeme

/-- What a character is by itself, if it is neither blank nor a digit. -/
def readChar (c : Char) : Reading :=
  match Token.ofChar? c with
  | some token => .token token
  | none => .stray c

/-- The pieces of a text whose first character stands at the given offset. -/
def scan (offset : Nat) : List Char → List Lexeme
  | [] => []
  | c :: rest =>
    if Text.isBlank c then scan (offset + c.utf8Size) rest
    else if c.isDigit then
      let run := c :: rest.takeWhile Char.isDigit
      let stop := offset + Text.byteLength run
      ⟨offset, stop, .token (.integer (.ofDigits run))⟩ :: scan stop (rest.dropWhile Char.isDigit)
    else
      let stop := offset + c.utf8Size
      ⟨offset, stop, readChar c⟩ :: scan stop rest
termination_by text => text.length
decreasing_by
  · simp
  · have := (List.dropWhile_sublist Char.isDigit (l := rest)).length_le
    simp only [List.length_cons]
    omega
  · simp

/-- The piece moved on by a number of bytes. -/
def shift (bytes : Nat) (piece : Lexeme) : Lexeme :=
  ⟨bytes + piece.start, bytes + piece.stop, piece.reading⟩

/-- Scanning from a later offset moves the pieces and changes nothing else. -/
theorem scan_add (bytes offset : Nat) (text : List Char) :
    scan (bytes + offset) text = (scan offset text).map (shift bytes) := by
  fun_induction scan offset text with
  | case1 => simp [scan]
  | case2 offset c rest hblank ih =>
    rw [scan, if_pos hblank, Nat.add_assoc, ih]
  | case3 offset c rest hblank hdigit run stop ih =>
    rw [scan, if_neg hblank, if_pos hdigit]
    simp only [List.map_cons, shift, stop, run, Nat.add_assoc] at ih ⊢
    rw [ih]
  | case4 offset c rest hblank hdigit stop ih =>
    rw [scan, if_neg hblank, if_neg hdigit]
    simp only [List.map_cons, shift, stop, Nat.add_assoc] at ih ⊢
    rw [ih]

end Lexeme

end Calculator
