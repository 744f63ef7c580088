/-
  White space.

  Blank characters separate tokens and frame lines; they carry no meaning of their own.  What is
  blank is the standard's property White_Space, 25 code points in all, and not the few of them
  that are ASCII: a no-break space or an ideographic space parts two numbers just as well.

  The one operation is `trim`, which takes the blank characters off both ends of a text.
-/
import Calculator.Text.CodePoints

namespace Calculator.Text

/-- The code points with the property White_Space. -/
def whiteSpace : CodePoints where
  ranges :=
    [(0x09, 0x0d), (0x20, 0x20), (0x85, 0x85), (0xa0, 0xa0), (0x1680, 0x1680),
     (0x2000, 0x200a), (0x2028, 0x2029), (0x202f, 0x202f), (0x205f, 0x205f), (0x3000, 0x3000)]

/-- Whether a character is blank. -/
def isBlank (c : Char) : Bool := whiteSpace.contains c

/-- The text without the blank characters at its two ends. -/
def trim (cs : List Char) : List Char :=
  ((cs.dropWhile isBlank).reverse.dropWhile isBlank).reverse

/-- A blank in front of a text does not survive trimming. -/
theorem trim_cons_of_isBlank {c : Char} {cs : List Char} (h : isBlank c = true) :
    trim (c :: cs) = trim cs := by
  simp [trim, h]

/-! ## Members -/

example : (whiteSpace.ranges.map fun r => r.2 + 1 - r.1).sum = 25 := by decide
example : isBlank '\u00a0' ∧ isBlank '\u3000' ∧ ¬ isBlank '\u200b' ∧ ¬ isBlank '7' := by decide
example : trim [' ', '1', ' ', '2', '\n'] = ['1', ' ', '2'] := by decide

end Calculator.Text
