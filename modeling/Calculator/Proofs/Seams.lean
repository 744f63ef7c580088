/-
  The seam between two texts.

  Problem: a text is written behind another one.  Say what a cursor answers for the two together,
  from what it answers for each of them alone.

  1. **Specification** — `Cursor.answers`: what a cursor answers, one step after the other, until it
     answers with the end, each answer with the place that the cursor then has.  `Answered.shift` is
     the same answer further on, which moves the place, and the place of a fault with it.

  2. **No seam** — the pieces of the two texts are those of the whole, unless digits meet
     (`Lexeme.scan_append`).

  3. **The crux (`answers_of_runs`)** — digits that meet are one run.  The run at the end of the first
     text and the one at the beginning of the second are a piece each, and the whole has one piece in
     their place.  On both sides of it no digits meet.

  4. **Result (`answers_append`)** — lexing goes through writing one behind the other, but for the
     one literal at the seam.
-/
import Calculator.Proofs.Concatenation
import Mathlib.Data.List.DropRight

namespace Calculator

open Text

/-! ## Specification -/

/-- The same fault, so many bytes further on. -/
def Fault.shift (bytes : Nat) (fault : Fault) : Fault := ⟨fault.cause, bytes + fault.position⟩

/-- What a cursor has answered, and the place it then has. -/
structure Answered where
  answer : Except Fault Token
  position : Nat

/-- The same answer, so many bytes further on. -/
def Answered.shift (bytes : Nat) (answered : Answered) : Answered :=
  ⟨answered.answer.mapError (Fault.shift bytes), bytes + answered.position⟩

/-- A step that does not come to the end uses up a piece. -/
theorem Cursor.left_next_lt {c : Cursor} (h : c.next.1.toOption ≠ some .endOfInput) :
    c.next.2.left < c.left := by
  rw [left_eq, left_eq, pending_next, List.length_tail]
  rcases hpending : c.pending with _ | ⟨piece, rest⟩
  · rw [next_of_nil hpending] at h
    exact absurd rfl h
  · exact Nat.lt_succ_self _

/-- What a cursor answers until it answers with the end, whether it answers with tokens or with
    faults. -/
def Cursor.answers (c : Cursor) : List Answered :=
  if c.next.1.toOption = some .endOfInput then []
  else ⟨c.next.1, c.next.2.position⟩ :: c.next.2.answers
termination_by c.left
decreasing_by exact left_next_lt ‹_›

/-- Digits meet where the first text ends and the second begins. -/
def DigitsMeet (front back : List Char) : Prop :=
  (∃ c ∈ front.getLast?, c.isDigit) ∧ ∃ c ∈ back.head?, c.isDigit

/-! ## Answers and pieces -/

/-- A piece, as the cursor answers it. -/
def Lexeme.answered (piece : Lexeme) : Answered := ⟨piece.answer, piece.start⟩

/-- Pieces further on are answered further on. -/
theorem Lexeme.answered_shift (bytes : Nat) (piece : Lexeme) :
    (piece.shift bytes).answered = piece.answered.shift bytes := by
  obtain ⟨start, stop, reading⟩ := piece
  cases reading with
  | token token => rfl
  | stray c => rfl

/-- The pieces to come are answered one by one, if the end is none of them. -/
theorem Cursor.answers_eq_map {c : Cursor}
    (h : ∀ piece ∈ c.pending, piece.reading ≠ .token .endOfInput) :
    c.answers = c.pending.map Lexeme.answered := by
  generalize hpending : c.pending = pieces at h
  induction pieces generalizing c with
  | nil =>
    rw [answers, if_pos (by rw [next_of_nil hpending]; rfl)]
    rfl
  | cons piece rest ih =>
    have hrest : c.next.2.pending = rest := by rw [pending_next, hpending, List.tail_cons]
    have hnext : c.next.1 = piece.answer ∧ c.next.2.position = piece.start := by
      rw [next_of_cons hpending]
      exact ⟨rfl, rfl⟩
    have hne : piece.answer.toOption ≠ some .endOfInput := by
      have hreading := h piece List.mem_cons_self
      rw [Lexeme.answer]
      split
      · next token htoken =>
        rintro ⟨⟩
        exact hreading htoken
      · rintro ⟨⟩
    rw [answers, if_neg (by rw [hnext.1]; exact hne), hnext.1, hnext.2,
      ih hrest fun later hlater => h later (List.mem_cons_of_mem _ hlater)]
    rfl

/-- What is answered for a text are its pieces. -/
theorem Cursor.answers_ofText (text : String) :
    (ofText text).answers = (Lexeme.scan 0 text.toList).map Lexeme.answered :=
  answers_eq_map Lexeme.reading_scan_ne_end

/-- What is answered for pieces further on is answered further on. -/
theorem Lexeme.map_answered_scan (bytes offset : Nat) (text : List Char) :
    (scan (bytes + offset) text).map answered =
      ((scan offset text).map answered).map (Answered.shift bytes) := by
  rw [scan_add, List.map_map, List.map_map]
  exact List.map_congr_left fun piece _ => answered_shift bytes piece

/-! ## Digits that meet -/

/-- Digits meet, or what follows is fresh. -/
theorem not_digitsMeet_iff {front back : List Char} :
    ¬ DigitsMeet front back ↔ Lexeme.Fresh front back := by
  constructor
  · intro h c hc d hd hdigit hdigit'
    exact h ⟨⟨c, hc, hdigit'⟩, d, hd, hdigit⟩
  · rintro h ⟨⟨c, hc, hdigit⟩, d, hd, hdigit'⟩
    exact h c hc d hd hdigit' hdigit

/-- Behind a text that ends in a digit stands a run of them, and no digit in front of that. -/
theorem digits_at_end {cs : List Char} (h : ∃ c ∈ cs.getLast?, c.isDigit) :
    cs.rtakeWhile Char.isDigit ≠ [] ∧
      ∀ c ∈ (cs.rdropWhile Char.isDigit).getLast?, ¬ c.isDigit := by
  obtain ⟨c, hc, hdigit⟩ := h
  refine ⟨fun hnil => ?_, fun d hd => ?_⟩
  · have hne : cs ≠ [] := by
      rintro rfl
      cases hc
    have hlast := List.rtakeWhile_eq_nil_iff.1 hnil hne
    rw [List.getLast?_eq_getLast_of_ne_nil hne] at hc
    rw [Option.some.inj hc] at hlast
    exact hlast hdigit
  · have hne : cs.rdropWhile Char.isDigit ≠ [] := by
      intro hnil
      rw [hnil] at hd
      cases hd
    rw [List.getLast?_eq_getLast_of_ne_nil hne] at hd
    rw [← Option.some.inj hd]
    exact List.rdropWhile_last_not _ _ hne

/-- A text that begins with a digit begins with a run of them. -/
theorem digits_at_beginning {cs : List Char} (h : ∃ c ∈ cs.head?, c.isDigit) :
    cs.takeWhile Char.isDigit ≠ [] := by
  obtain ⟨c, hc, hdigit⟩ := h
  obtain ⟨rest, rfl⟩ := List.head?_eq_some_iff.1 hc
  rw [List.takeWhile_cons_of_pos hdigit]
  exact List.cons_ne_nil _ _

/-- **Digits that stand together are one piece**, and what stands before and behind them has the
    pieces that it has by itself. -/
theorem scan_of_digits {front run back : List Char} (hrun : run ≠ []) (hdigits : ∀ c ∈ run, c.isDigit)
    (hfront : ∀ c ∈ front.getLast?, ¬ c.isDigit) (hback : ∀ c ∈ back.head?, ¬ c.isDigit) :
    Lexeme.scan 0 (front ++ (run ++ back)) =
      Lexeme.scan 0 front ++
        ⟨byteLength front, byteLength front + byteLength run, .token (.integer (.ofDigits run))⟩ ::
          Lexeme.scan (byteLength front + byteLength run) back := by
  rw [Lexeme.scan_append 0 (Lexeme.fresh_of_last hfront), Nat.zero_add,
    Lexeme.scan_integer hrun hdigits hback]

/-- **The seam of two texts.**  Where a run of digits ends the first text and another one begins the
    second, each is a literal by itself, and both together are one literal of the whole. -/
theorem answers_of_runs {first second : String} {front run run' back : List Char}
    (hfirst : front ++ run = first.toList) (hsecond : run' ++ back = second.toList)
    (hrun : run ≠ []) (hrun' : run' ≠ []) (hdigits : ∀ c ∈ run, c.isDigit)
    (hdigits' : ∀ c ∈ run', c.isDigit) (hfront : ∀ c ∈ front.getLast?, ¬ c.isDigit)
    (hback : ∀ c ∈ back.head?, ¬ c.isDigit) :
    ∃ before behind,
      (Cursor.ofText first).answers =
        before ++ [⟨.ok (.integer (.ofDigits run)), byteLength front⟩] ∧
      (Cursor.ofText second).answers = ⟨.ok (.integer (.ofDigits run')), 0⟩ :: behind ∧
      (Cursor.ofText (first ++ second)).answers =
        before ++ ⟨.ok (.integer (.ofDigits (run ++ run'))), byteLength front⟩ ::
          behind.map (Answered.shift (byteLength first.toList)) := by
  simp only [Cursor.answers_ofText, String.toList_append]
  refine ⟨(Lexeme.scan 0 front).map Lexeme.answered,
    (Lexeme.scan (byteLength run') back).map Lexeme.answered, ?_, ?_, ?_⟩
  · have hnothing : ∀ c ∈ ([] : List Char).head?, ¬ c.isDigit := fun c hc => by cases hc
    have hscan := scan_of_digits hrun hdigits hfront hnothing
    rw [List.append_nil, hfirst] at hscan
    rw [hscan, List.map_append, List.map_cons, Lexeme.scan]
    rfl
  · have hnothing : ∀ c ∈ ([] : List Char).getLast?, ¬ c.isDigit := fun c hc => by cases hc
    have hscan := scan_of_digits hrun' hdigits' hnothing hback
    rw [List.nil_append, hsecond, byteLength_nil, Nat.zero_add, Lexeme.scan] at hscan
    rw [hscan]
    rfl
  · have hboth : ∀ c ∈ run ++ run', c.isDigit := fun c hc =>
      (List.mem_append.1 hc).elim (hdigits c) (hdigits' c)
    have hscan := scan_of_digits (List.append_ne_nil_of_left_ne_nil hrun run') hboth hfront hback
    have hwhole : first.toList ++ second.toList = front ++ (run ++ run' ++ back) := by
      simp only [← hfirst, ← hsecond, List.append_assoc]
    -- behind the seam the whole is where the second text is, the first one further on
    have hbytes : byteLength front + byteLength (run ++ run') =
        byteLength first.toList + byteLength run' := by
      rw [← hfirst, byteLength_append, byteLength_append, Nat.add_assoc]
    rw [hwhole, hscan, hbytes, List.map_append, List.map_cons, Lexeme.map_answered_scan]
    rfl

/-! ## The result -/

/-- **Lexing goes through writing one behind the other.**  If no digits meet, a cursor answers for
    two texts together what it answers for the first, and then what it answers for the second, moved
    on by the bytes of the first.  If digits meet, the last answer for the first text is the literal
    of the digits at its end, the first answer for the second is that of the digits at its
    beginning, and the whole has the literal of both together instead, at the place of the former. -/
theorem answers_append (first second : String) :
    (¬ DigitsMeet first.toList second.toList →
      (Cursor.ofText (first ++ second)).answers =
        (Cursor.ofText first).answers ++
          (Cursor.ofText second).answers.map (Answered.shift (byteLength first.toList))) ∧
    (DigitsMeet first.toList second.toList →
      let run := first.toList.rtakeWhile Char.isDigit
      let run' := second.toList.takeWhile Char.isDigit
      let place := byteLength (first.toList.rdropWhile Char.isDigit)
      ∃ before behind,
        (Cursor.ofText first).answers = before ++ [⟨.ok (.integer (.ofDigits run)), place⟩] ∧
        (Cursor.ofText second).answers = ⟨.ok (.integer (.ofDigits run')), 0⟩ :: behind ∧
        (Cursor.ofText (first ++ second)).answers =
          before ++ ⟨.ok (.integer (.ofDigits (run ++ run'))), place⟩ ::
            behind.map (Answered.shift (byteLength first.toList))) := by
  refine ⟨fun hmeet => ?_, fun hmeet => ?_⟩
  · simp only [Cursor.answers_ofText, String.toList_append]
    rw [Lexeme.scan_append 0 (not_digitsMeet_iff.1 hmeet), List.map_append, Nat.add_comm 0,
      Lexeme.map_answered_scan]
  · obtain ⟨hrun, hfront⟩ := digits_at_end hmeet.1
    exact answers_of_runs List.rdropWhile_append_rtakeWhile List.takeWhile_append_dropWhile hrun
      (digits_at_beginning hmeet.2) (fun _ => List.mem_rtakeWhile_imp)
      (List.all_eq_true.1 List.all_takeWhile) hfront (not_isDigit_behind_run _)

/-- Digits meet behind a sum, and make one literal; behind a blank they do not. -/
theorem sum_goes_on_behind_seam :
    DigitsMeet "é + 2".toList "3 @4".toList ∧
      (∃ before behind,
        (Cursor.ofText "é + 2").answers = before ++ [⟨.ok (.integer (.exact 2)), 5⟩] ∧
        (Cursor.ofText "3 @4").answers = ⟨.ok (.integer (.exact 3)), 0⟩ :: behind ∧
        (Cursor.ofText ("é + 2" ++ "3 @4")).answers =
          before ++ ⟨.ok (.integer (.exact 23)), 5⟩ :: behind.map (Answered.shift 6)) ∧
      ¬ DigitsMeet "é + 2".toList " 3 @4".toList ∧
      (Cursor.ofText ("é + 2" ++ " 3 @4")).answers =
        (Cursor.ofText "é + 2").answers ++
          (Cursor.ofText " 3 @4").answers.map (Answered.shift 6) := by
  have hmeet : DigitsMeet "é + 2".toList "3 @4".toList := ⟨⟨'2', rfl, rfl⟩, '3', rfl, rfl⟩
  have hapart : ¬ DigitsMeet "é + 2".toList " 3 @4".toList := by
    rintro ⟨_, c, hc, hdigit⟩
    cases hc
    cases hdigit
  have hlast : Literal.ofDigits ("é + 2".toList.rtakeWhile Char.isDigit) = .exact 2 := by
    decide +kernel
  have hnext : Literal.ofDigits ("3 @4".toList.takeWhile Char.isDigit) = .exact 3 := by
    decide +kernel
  have hboth : Literal.ofDigits ("é + 2".toList.rtakeWhile Char.isDigit ++
      "3 @4".toList.takeWhile Char.isDigit) = .exact 23 := by
    decide +kernel
  have hseam := (answers_append "é + 2" "3 @4").2 hmeet
  simp only [hlast, hnext, hboth] at hseam
  exact ⟨hmeet, hseam, hapart, (answers_append "é + 2" " 3 @4").1 hapart⟩

end Calculator
