/-
  The transcript of a session.

  Problem: say what the shell writes and how it ends, for any input whatever, given an output that
  takes all that is written.

  1. **Lines** — `Text.SplitsAt`: a line ends at a mark, and what is left behind the last mark is a
     line too if it is not empty.  Every input splits in exactly one way (`Text.splitsAt_iff`).

  2. **Ordinary lines** — `Ordinary`: UTF-8, and not the word that leaves.  `exchange` is what such a
     line brings about: the prompt, and an answer unless there is nothing to answer.

  3. **The crux (`session_append`)** — ordinary lines are worked off one after the other, each adding
     its exchange to the output and leaving nothing else behind.  The induction is on the lines, for
     any output.

  4. **Result (`run_eq_transcript`)** — a session goes through the ordinary lines at the beginning.
     Then there is one more prompt, and it ends: at the end of the input, at a line that is not
     UTF-8, or at the word that leaves.  What comes behind that line plays no part.
-/
import Calculator.Proofs.Messages

namespace Calculator

/-! ## Lines -/

namespace Text

variable {α : Type} [DecidableEq α]

/-- The lines that a text falls into at a mark. -/
inductive SplitsAt (mark : α) : List α → List (List α) → Prop
  /-- An empty text has no lines. -/
  | nil : SplitsAt mark [] []
  /-- The last line need not be ended. -/
  | unended {line : List α} (hmark : mark ∉ line) (hne : line ≠ []) : SplitsAt mark line [line]
  /-- A line is ended by the mark behind it. -/
  | ended {line rest : List α} {lines : List (List α)} (hmark : mark ∉ line)
      (hrest : SplitsAt mark rest lines) : SplitsAt mark (line ++ mark :: rest) (line :: lines)

/-- A text splits into its lines. -/
theorem splitsAt_lines (mark : α) (text : List α) : SplitsAt mark text (lines mark text) := by
  induction text with
  | nil => exact .nil
  | cons x text ih =>
    by_cases hx : x = mark
    · subst hx
      have hempty : SplitsAt x ([] ++ x :: text) ([] :: lines x text) :=
        .ended List.not_mem_nil ih
      rw [lines_cons_mark]
      exact hempty
    · rw [lines_cons]
      generalize lines mark text = following at ih ⊢
      have hmark : ∀ {line : List α}, mark ∉ line → mark ∉ x :: line := by
        intro line hline hmem
        rcases List.mem_cons.1 hmem with rfl | hmem
        · exact hx rfl
        · exact hline hmem
      rw [lineStep.eq_def, if_neg hx]
      cases ih with
      | nil => exact .unended (hmark List.not_mem_nil) (List.cons_ne_nil _ _)
      | unended hline _ => exact .unended (hmark hline) (List.cons_ne_nil _ _)
      | ended hline hrest => exact .ended (hmark hline) hrest

/-- **A text splits in exactly one way.** -/
theorem splitsAt_iff {mark : α} {text : List α} {split : List (List α)} :
    SplitsAt mark text split ↔ split = lines mark text := by
  constructor
  · intro h
    induction h with
    | nil => rfl
    | unended hmark hne => exact (lines_of_not_mem hmark hne).symm
    | ended hmark _ ih => rw [lines_append_mark hmark, ih]
  · rintro rfl
    exact splitsAt_lines mark text

end Text

namespace Shell

/-! ## Lines of a session -/

/-- The text is the word that leaves, in any mixture of cases and with blanks around it. -/
def IsExit (text : String) : Prop := (Text.trim text.toList).map Char.toLower = "exit".toList

/-- The session goes on behind the line. -/
def Ordinary (line : ByteArray) : Prop :=
  ∃ text, String.fromUTF8? line = some text ∧ ¬ IsExit text

/-- What is written for a line behind which the session goes on. -/
def exchange (settings : Settings) (line : ByteArray) : String :=
  match String.fromUTF8? line with
  | none => prompt
  | some text =>
    let expression := Text.trim text.toList
    if expression = [] then prompt else prompt ++ answer settings (String.ofList expression)

/-- All that is written for such lines. -/
def exchanges (settings : Settings) (lines : List ByteArray) : String :=
  String.join (lines.map (exchange settings))

variable {settings : Settings} {line : ByteArray} {rest : List ByteArray} {text : String}
  {written : ByteArray}

/-- An output that takes all that is written. -/
def unlimited (written : ByteArray) : Output := ⟨written, none⟩

/-- What is written in two parts might as well be written as one. -/
theorem append_toUTF8 (written : ByteArray) (first second : String) :
    written ++ first.toUTF8 ++ second.toUTF8 = written ++ (first ++ second).toUTF8 := by
  rw [ByteArray.append_assoc]
  exact congrArg (written ++ ·) String.toByteArray_append.symm

/-- A session over some lines begins with a prompt. -/
theorem session_cons (settings : Settings) (line : ByteArray) (rest : List ByteArray)
    (written : ByteArray) :
    session settings (line :: rest) (unlimited written) =
      match respond settings line (unlimited (written ++ prompt.toUTF8)) with
      | .ok true output => session settings rest output
      | .ok false output => .ok () output
      | .error failure output => .error failure output := by
  rw [session]
  show EStateM.bind (write prompt) _ _ = _
  rw [EStateM.bind, write_of_unlimited rfl]
  show EStateM.bind (respond settings line) _ (unlimited (written ++ prompt.toUTF8)) = _
  rw [EStateM.bind.eq_def]
  rcases respond settings line (unlimited (written ++ prompt.toUTF8)) with
    ⟨goesOn, output⟩ | ⟨failure, output⟩
  · cases goesOn <;> rfl
  · rfl

/-- Without lines a session writes a prompt and ends its line. -/
theorem session_nil (settings : Settings) (written : ByteArray) :
    session settings [] (unlimited written) =
      .ok () (unlimited (written ++ (prompt ++ "\n").toUTF8)) := by
  rw [session]
  show EStateM.bind (write prompt) _ _ = _
  rw [EStateM.bind, write_of_unlimited rfl]
  show write "\n" (unlimited (written ++ prompt.toUTF8)) = _
  rw [write_of_unlimited rfl, ← append_toUTF8]
  rfl

/-- The command of a text that does not leave. -/
theorem ofLine_of_not_isExit (h : ¬ IsExit text) :
    Command.ofLine text =
      if Text.trim text.toList = [] then .empty
      else .evaluate (String.ofList (Text.trim text.toList)) := by
  rw [Command.ofLine]
  exact if_neg h

/-- An expression is answered, and the session goes on. -/
theorem respond_of_evaluate {expression : String} (hdecode : String.fromUTF8? line = some text)
    (hcommand : Command.ofLine text = .evaluate expression) :
    respond settings line (unlimited written) =
      .ok true (unlimited (written ++ (answer settings expression).toUTF8)) := by
  rw [respond, hdecode]
  simp only [hcommand]
  show EStateM.bind (write (answer settings expression)) _ _ = _
  rw [EStateM.bind, write_of_unlimited rfl]
  rfl

/-- **An ordinary line adds its exchange to the output**, and the session goes on. -/
theorem session_ordinary (h : Ordinary line) :
    session settings (line :: rest) (unlimited written) =
      session settings rest (unlimited (written ++ (exchange settings line).toUTF8)) := by
  obtain ⟨text, hdecode, hexit⟩ := h
  have hcommand := ofLine_of_not_isExit hexit
  rw [session_cons, exchange, hdecode]
  by_cases hblank : Text.trim text.toList = []
  · rw [if_pos hblank] at hcommand
    simp only [respond, hdecode, hcommand, hblank, if_true]
    rfl
  · rw [if_neg hblank] at hcommand
    simp only [respond_of_evaluate hdecode hcommand, hblank, if_false, append_toUTF8]

/-- So do all of them that come one after the other. -/
theorem session_append {lines : List ByteArray} (h : ∀ line ∈ lines, Ordinary line) :
    session settings (lines ++ rest) (unlimited written) =
      session settings rest (unlimited (written ++ (exchanges settings lines).toUTF8)) := by
  induction lines generalizing written with
  | nil =>
    have hnothing : written ++ (exchanges settings []).toUTF8 = written := ByteArray.append_empty
    rw [List.nil_append, hnothing]
  | cons line lines ih =>
    have hrest : ∀ line ∈ lines, Ordinary line := fun line hline =>
      h line (List.mem_cons_of_mem _ hline)
    rw [List.cons_append, session_ordinary (h line List.mem_cons_self), ih hrest, append_toUTF8,
      exchanges, exchanges, List.map_cons, String.join_cons]

/-- A line that is not UTF-8 breaks the session off behind its prompt. -/
theorem session_undecodable (h : String.fromUTF8? line = none) :
    session settings (line :: rest) (unlimited written) =
      .error .undecodable (unlimited (written ++ prompt.toUTF8)) := by
  rw [session_cons, respond, h]
  rfl

/-- The word that leaves ends it well. -/
theorem session_exit (hdecode : String.fromUTF8? line = some text) (h : IsExit text) :
    session settings (line :: rest) (unlimited written) =
      .ok () (unlimited (written ++ prompt.toUTF8)) := by
  have hcommand : Command.ofLine text = .exit := if_pos h
  rw [session_cons, respond, hdecode]
  simp only [hcommand]
  rfl

/-- What comes behind the line at which a session ends plays no part. -/
theorem session_of_not_ordinary (h : ¬ Ordinary line) (rest rest' : List ByteArray) :
    session settings (line :: rest) (unlimited written) =
      session settings (line :: rest') (unlimited written) := by
  rcases hdecode : String.fromUTF8? line with _ | text
  · rw [session_undecodable hdecode, session_undecodable hdecode]
  · have hexit : IsExit text := Classical.byContradiction fun hne => h ⟨text, hdecode, hne⟩
    rw [session_exit hdecode hexit, session_exit hdecode hexit]

/-! ## Inputs -/

/-- The lines of an input, as bytes. -/
theorem map_inputLines (input : ByteArray) :
    ((inputLines input).map fun line => line.data.toList) = Text.lines 10 input.data.toList := by
  rw [inputLines, List.map_map]
  exact List.map_id _

/-- An input splits into its lines and no others. -/
theorem inputLines_of_splitsAt {input : ByteArray} {lines : List ByteArray}
    (h : Text.SplitsAt 10 input.data.toList (lines.map fun line => line.data.toList)) :
    inputLines input = lines := by
  have hlines := (map_inputLines input).trans (Text.splitsAt_iff.1 h).symm
  refine (List.map_inj_right fun x y hxy => ?_).1 hlines
  exact ByteArray.ext (Array.toList_inj.1 hxy)

/-- **The transcript of a session is determined line by line.**  The input splits into its lines in
    exactly one way.  If all of them are ordinary, each adds its exchange to the output, and at last
    there is a prompt and the end of its line.  Otherwise there is a first line that is not ordinary.
    The lines in front of it add their exchanges, there is one more prompt, and the session ends:
    with a failure if the line is not UTF-8, and well if it is the word that leaves.  Any input with
    the same lines up to there gives the same.  An answer is a single line, the result or the
    message, and depends on its expression and the settings alone. -/
theorem run_eq_transcript (settings : Settings) (input written : ByteArray) :
    ∃ lines : List ByteArray,
      (∀ split, Text.SplitsAt 10 input.data.toList split ↔
        split = lines.map fun line => line.data.toList) ∧
      ((∀ line ∈ lines, Ordinary line) →
        run settings input (unlimited written) =
          .ok () (unlimited (written ++ (exchanges settings lines ++ (prompt ++ "\n")).toUTF8))) ∧
      (∀ front line behind, lines = front ++ line :: behind →
        (∀ earlier ∈ front, Ordinary earlier) →
        (String.fromUTF8? line = none → run settings input (unlimited written) =
          .error .undecodable
            (unlimited (written ++ (exchanges settings front ++ prompt).toUTF8))) ∧
        (∀ text, String.fromUTF8? line = some text → IsExit text →
          run settings input (unlimited written) =
            .ok () (unlimited (written ++ (exchanges settings front ++ prompt).toUTF8))) ∧
        (¬ Ordinary line → ∀ (input' : ByteArray) (behind' : List ByteArray),
          Text.SplitsAt 10 input'.data.toList
            ((front ++ line :: behind').map fun line => line.data.toList) →
          run settings input' (unlimited written) = run settings input (unlimited written))) ∧
      ∀ text, ∃ reply : String, answer settings text = reply ++ "\n" ∧ Text.Unbroken reply.toList ∧
        (∀ value, evaluateWith settings text = .ok value → reply = "Result: " ++ value.text) ∧
        ∀ fault, evaluateWith settings text = .error fault → reply = fault.message := by
  refine ⟨inputLines input, fun split => ?_, fun hall => ?_, ?_, answer_eq_line settings⟩
  · rw [map_inputLines]
    exact Text.splitsAt_iff
  · have hlines : session settings (inputLines input ++ []) (unlimited written) =
        session settings []
          (unlimited (written ++ (exchanges settings (inputLines input)).toUTF8)) :=
      session_append hall
    rw [List.append_nil] at hlines
    rw [run, hlines, session_nil, append_toUTF8]
  · intro front line behind hinput hfront
    have hrun : ∀ rest, session settings (front ++ rest) (unlimited written) =
        session settings rest (unlimited (written ++ (exchanges settings front).toUTF8)) :=
      fun rest => session_append hfront
    refine ⟨fun hdecode => ?_, fun text hdecode hexit => ?_, fun hends input' behind' hsplit => ?_⟩
    · rw [run, hinput, hrun, session_undecodable hdecode, append_toUTF8]
    · rw [run, hinput, hrun, session_exit hdecode hexit, append_toUTF8]
    · rw [run, run, inputLines_of_splitsAt hsplit, hinput, hrun, hrun]
      exact session_of_not_ordinary hends _ _

end Shell

end Calculator
