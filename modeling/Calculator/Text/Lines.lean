/-
  Lines.

  A mark ends a line; what follows the last mark is a line too, unless it is empty.  So "a⏎b" and
  "a⏎b⏎" are the same two lines, and an empty text has no line at all.

  The text may be characters or bytes, so the mark is a parameter.  The lines come without it.
-/

namespace Calculator.Text

variable {α : Type} [DecidableEq α]

/-- The lines of a text, given the lines of all that follows its first item. -/
def lineStep (mark x : α) (following : List (List α)) : List (List α) :=
  if x = mark then [] :: following
  else match following with
    | [] => [[x]]
    | line :: rest => (x :: line) :: rest

/-- The lines of a text whose lines end at `mark`. -/
def lines (mark : α) (text : List α) : List (List α) := text.foldr (lineStep mark) []

@[simp] theorem lines_nil (mark : α) : lines mark [] = [] := rfl

theorem lines_cons (mark x : α) (xs : List α) :
    lines mark (x :: xs) = lineStep mark x (lines mark xs) := rfl

/-- The mark at the head of a text ends an empty line. -/
@[simp] theorem lines_cons_mark (mark : α) (xs : List α) :
    lines mark (mark :: xs) = [] :: lines mark xs := by
  simp [lines_cons, lineStep]

/-- A line without the mark in it is cut off by the first mark behind it. -/
theorem lines_append_mark {mark : α} {line : List α} (h : mark ∉ line) (rest : List α) :
    lines mark (line ++ mark :: rest) = line :: lines mark rest := by
  induction line with
  | nil => exact lines_cons_mark mark rest
  | cons x line ih =>
    obtain ⟨hx, hline⟩ : mark ≠ x ∧ mark ∉ line := by simpa using h
    simp only [List.cons_append, lines_cons, ih hline, lineStep, if_neg (Ne.symm hx)]

/-- A last line needs no mark, as long as it is not empty. -/
theorem lines_of_not_mem {mark : α} {line : List α} (h : mark ∉ line) (hne : line ≠ []) :
    lines mark line = [line] := by
  induction line with
  | nil => exact absurd rfl hne
  | cons x line ih =>
    obtain ⟨hx, hline⟩ : mark ≠ x ∧ mark ∉ line := by simpa using h
    rw [lines_cons]
    rcases line with _ | ⟨y, line⟩
    · simp [lineStep, Ne.symm hx]
    · simp [ih hline, lineStep, Ne.symm hx]

/-! ## With and without a mark at the end -/

example : lines 0 [1, 0, 2] = [[1], [2]] ∧ lines 0 [1, 0, 2, 0] = [[1], [2]] := by decide
example : lines 0 [0, 0] = [[], []] := by decide

end Calculator.Text
