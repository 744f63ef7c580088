/-
  Evaluation does not depend on what it has not pulled.

  Problem: an evaluation looks one token ahead, and no further.  Show that the text behind the last
  piece it has pulled could be anything.

  1. **Two texts (`run_of_same_front`)** — texts that begin with the same characters, where no digits
     meet behind these, have the same pieces up to there; and evaluations that pull no more than
     these pieces are in step, each place corresponding to itself.

  2. **The crux** — the last piece that is pulled splits its text (`Lexeme.exists_split_of_piece`).
     Another text with the same bytes up to the end of that piece has the same characters.  If they
     end in a digit, which only a literal does, then no digit may follow, since it would belong to
     the literal; otherwise anything may.

  3. **How far that is (`steps_of_takes`)** — if the rest is ignored, every step uses up a token, and
     what is left of them when the value is found is what lies behind the expression.  So nothing
     has been pulled but the tokens of the expression and the one behind it.
-/
import Calculator.Proofs.Concatenation
import Calculator.Proofs.Evidence
import Calculator.Proofs.Lockstep
import Calculator.Proofs.Remainder

namespace Calculator

open Text

namespace Evaluation

variable {settings : Settings} {text text' : String}

/-! ## Two texts -/

/-- Texts that begin alike are evaluated alike, as long as nothing behind that is pulled. -/
theorem run_of_same_front {front back back' : List Char} (htext : text.toList = front ++ back)
    (htext' : text'.toList = front ++ back') (hfresh : Lexeme.Fresh front back)
    (hfresh' : Lexeme.Fresh front back')
    (hpulls : (run settings text).pulls ≤ (Lexeme.scan 0 front).length) :
    (run settings text').pulls = (run settings text).pulls ∧
      evaluateWith settings text' = evaluateWith settings text := by
  have hpieces : ∀ {text : String} {back : List Char}, text.toList = front ++ back →
      Lexeme.Fresh front back → (Cursor.ofText text).pending =
        Lexeme.scan 0 front ++ Lexeme.scan (byteLength front) back := by
    intro text back htext hfresh
    show Lexeme.scan 0 text.toList = _
    rw [htext, Lexeme.scan_append 0 hfresh, Nat.zero_add]
  have hsame : List.Forall₂ (fun piece piece' =>
      (pairing settings text text' Eq).Same piece.placed piece'.placed)
      (Lexeme.scan 0 front) (Lexeme.scan 0 front) :=
    List.forall₂_same.2 fun _ _ => ⟨rfl, .inl rfl⟩
  have hagree := Pairing.agree_of_forall₂ (n := 0) hsame (hpieces htext hfresh)
    (hpieces htext' hfresh') fun _ _ _ _ _ _ => trivial
  obtain ⟨hcount, houtcome⟩ := inStep (hagree.mono (by omega))
  refine ⟨hcount, ?_⟩
  rcases houtcome with ⟨value, hvalue, hvalue'⟩ | ⟨cause, position, _, rfl, hfault, hfault'⟩
  · rw [evaluateWith, evaluateWith, hvalue, hvalue']
  · rw [evaluateWith, evaluateWith, hfault, hfault']

/-- A text that has the bytes of another one up to the end of a piece has its characters up to there,
    and digits do not meet in either, unless the piece is a literal and a digit follows. -/
theorem exists_same_front {n : Nat} {piece : Lexeme}
    (hpiece : (Lexeme.scan 0 text.toList)[n]? = some piece)
    (hbytes : text'.toUTF8.extract 0 piece.stop = text.toUTF8.extract 0 piece.stop)
    (hdigit : (∃ literal, piece.reading = .token (.integer literal)) →
      ∀ c, CharAt text' piece.stop c → ¬ c.isDigit) :
    ∃ front back back', text.toList = front ++ back ∧ text'.toList = front ++ back' ∧
      Lexeme.Fresh front back ∧ Lexeme.Fresh front back' ∧
      (Lexeme.scan 0 front).length = n + 1 := by
  obtain ⟨front, back, htext, hstop, hfresh, hlength, hlast⟩ :=
    Lexeme.exists_split_of_piece hpiece
  rw [← hstop] at hbytes hdigit
  obtain ⟨back', htext'⟩ := toList_of_extract htext hbytes
  refine ⟨front, back, back', htext, htext', hfresh, ?_, hlength⟩
  rcases hlast with hliteral | hlast
  · refine Lexeme.fresh_of_head fun c hc => hdigit hliteral c ?_
    obtain ⟨more, rfl⟩ := List.head?_eq_some_iff.1 hc
    exact ⟨front, more, htext', rfl⟩
  · exact Lexeme.fresh_of_last hlast

/-! ## How far an expression is pulled -/

/-- The parser of a text that has a value stops in front of what lies behind the expression. -/
theorem exists_stop {maxDepth : Nat} {value : Binary64}
    (h : evaluateWith ⟨maxDepth, .ignored⟩ text = .ok value) :
    ∃ e rest q, Takes maxDepth text e rest ∧ e.eval = .ok value ∧
      course ⟨maxDepth, .ignored⟩ text = .ok value q ∧
      q.Ready ⟨maxDepth, .ignored⟩ (byteLength text.toList) ∧ q.ahead = rest := by
  obtain ⟨e, rest, htakes, heval⟩ := exists_takes_iff.1 h
  obtain ⟨hcode, hending⟩ := Outline.yields_ofText_ignored.2 ⟨e, htakes, rfl⟩
  have hexecute : execute (Outline.ofText ⟨maxDepth, .ignored⟩ text).code [] = .ok [value] := by
    rw [hcode, execute_code, heval]
    rfl
  rcases follows_ofText ⟨maxDepth, .ignored⟩ text with ⟨fault, _, hfail⟩ | ⟨p, hstart, hfollows⟩
  · rw [hfail] at hending
    cases hending
  · rw [Follows, hexecute, hending] at hfollows
    obtain ⟨_, q, hparse, _, hready, hahead, hvalue⟩ := hfollows
    cases hvalue
    exact ⟨e, rest, q, htakes, heval, (course_of_start hstart).trans hparse, hready, hahead⟩

/-- **What an evaluation that ignores the rest has pulled is the expression and one token more**: the
    one behind it, or the end. -/
theorem steps_of_takes (hignored : settings.trailing = .ignored) {value : Binary64}
    (h : evaluateWith settings text = .ok value) :
    ∃ e rest, Takes settings.maxDepth text e rest ∧ e.eval = .ok value ∧
      (run settings text).pulls = e.placed.length + 1 ∧
      (Cursor.ofText text).steps (run settings text).pulls =
        e.placed ++ [rest.headD ⟨.token .endOfInput, byteLength text.toList⟩] := by
  obtain ⟨maxDepth, trailing⟩ := settings
  obtain rfl : trailing = .ignored := hignored
  obtain ⟨e, rest, q, htakes, heval, hcourse, hready, rfl⟩ := exists_stop h
  have hpieces : ((Cursor.ofText text).pending.map Lexeme.placed) = e.placed ++ q.ahead :=
    htakes.text_eq
  have hlength := congrArg List.length hpieces
  rw [List.length_map, List.length_append] at hlength
  have hpulls : (run ⟨maxDepth, .ignored⟩ text).pulls = e.placed.length + 1 := by
    have hignored : (⟨maxDepth, .ignored⟩ : Settings).trailing = .ignored := rfl
    obtain ⟨n, hpulled⟩ := pulled_course_ignored hignored text
    obtain ⟨_, _, hcount, _⟩ := run_eq_course ⟨maxDepth, .ignored⟩ text
    have hn : (run ⟨maxDepth, .ignored⟩ text).pulls = n := by
      rw [hcount, hpulled.pulls_eq]
      exact Nat.zero_add n
    have hused := hpulled.remaining_eq
    rw [hcourse] at hused
    have hleft : q.remaining = q.ahead.length := hready.remaining_eq
    have hall : (Parser.fresh ⟨maxDepth, .ignored⟩ (Cursor.ofText text)).remaining =
        (Cursor.ofText text).pending.length + 1 := rfl
    have hused : n + q.remaining = (Cursor.ofText text).pending.length + 1 := hused
    omega
  refine ⟨e, q.ahead, htakes, heval, hpulls, ?_⟩
  have hsteps := Cursor.steps_eq_take (c := Cursor.ofText text) (n := e.placed.length) (by omega)
  have hrest : ((Cursor.ofText text).skip e.placed.length).pending.map Lexeme.placed = q.ahead := by
    rw [Cursor.pending_skip, List.map_drop, hpieces, List.drop_left]
  have hone : ((Cursor.ofText text).skip e.placed.length).steps 1 =
      [((Cursor.ofText text).skip e.placed.length).front] := rfl
  rw [hpulls, Cursor.steps_add, hsteps, hpieces, List.take_left, hone, Cursor.front_eq_headD, hrest,
    Cursor.length_skip]
  rfl

end Evaluation

/-! ## The result -/

/-- **An evaluation never depends on text that it has not pulled.**  It leaves its cursor behind as
    many steps further on as are counted, and has read the tokens among them.  If the last of these
    steps is a piece of the text, then every text with the same bytes up to the end of that piece is
    pulled from equally often and has the same outcome, unless the piece is a literal and a digit
    follows.  And if the rest is ignored and there is a value, nothing has been pulled but the tokens
    of the expression and the one that lies behind it. -/
theorem evaluation_independent_of_unpulled_text (settings : Settings) (text : String) :
    (Evaluation.cursor settings text =
        (Cursor.ofText text).skip (Evaluation.run settings text).pulls ∧
      (Evaluation.run settings text).reads =
        ((Cursor.ofText text).steps (Evaluation.run settings text).pulls).filterMap
          Placed.read?) ∧
    (∀ n piece, (Evaluation.run settings text).pulls = n + 1 →
      (Lexeme.scan 0 text.toList)[n]? = some piece →
      ∀ text' : String,
        text'.toUTF8.extract 0 piece.stop = text.toUTF8.extract 0 piece.stop →
        ((∃ literal, piece.reading = .token (.integer literal)) →
          ∀ c, CharAt text' piece.stop c → ¬ c.isDigit) →
        (Evaluation.run settings text').pulls = n + 1 ∧
          evaluateWith settings text' = evaluateWith settings text) ∧
    (settings.trailing = .ignored → ∀ value, evaluateWith settings text = .ok value →
      ∃ e rest, Takes settings.maxDepth text e rest ∧ e.eval = .ok value ∧
        (Evaluation.run settings text).pulls = e.placed.length + 1 ∧
        (Cursor.ofText text).steps (Evaluation.run settings text).pulls =
          e.placed ++ [rest.headD ⟨.token .endOfInput, byteLength text.toList⟩]) := by
  refine ⟨Evaluation.cursor_eq_skip settings text, ?_, fun hignored _ h =>
    Evaluation.steps_of_takes hignored h⟩
  intro n piece hpulls hpiece text' hbytes hdigit
  obtain ⟨front, back, back', htext, htext', hfresh, hfresh', hlength⟩ :=
    Evaluation.exists_same_front hpiece hbytes hdigit
  have hcount : (Evaluation.run settings text).pulls ≤ (Lexeme.scan 0 front).length := by omega
  obtain ⟨hsame, houtcome⟩ := Evaluation.run_of_same_front htext htext' hfresh hfresh' hcount
  exact ⟨hsame.trans hpulls, houtcome⟩

/-- What stands behind a parenthesis that closes nothing is not looked at. -/
theorem text_behind_stray_parenthesis_unpulled :
    (Evaluation.run {} "1 + 2 ) x").pulls = 4 ∧
      (Evaluation.run {} "1 + 2 )34").pulls = 4 ∧
      evaluateWith {} "1 + 2 )34" = evaluateWith {} "1 + 2 ) x" := by
  have hpulls : (Evaluation.run {} "1 + 2 ) x").pulls = 3 + 1 := by decide +kernel
  have hpiece : (Lexeme.scan 0 "1 + 2 ) x".toList)[3]? = some ⟨6, 7, .token .rightParen⟩ := by
    decide +kernel
  have hbytes : "1 + 2 )34".toUTF8.extract 0 7 = "1 + 2 ) x".toUTF8.extract 0 7 := by
    decide +kernel
  refine ⟨hpulls, (evaluation_independent_of_unpulled_text {} "1 + 2 ) x").2.1 3 _ hpulls hpiece
    "1 + 2 )34" hbytes ?_⟩
  rintro ⟨literal, hliteral⟩
  cases hliteral

end Calculator
