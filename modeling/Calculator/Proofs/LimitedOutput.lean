/-
  An output that fills up.

  Problem: an output may have room for so many bytes and no more.  Show that this does nothing but cut
  off what is written: all goes as it does without a limit while there is room, and where there is
  none the session ends at once, whatever it would have come to.

  1. **Specification** — `CutOff`: two results side by side, one with a limit and one without.  If all
     fits, they are the same; if it does not, the first bytes are there and the output is full.

  2. **Actions** — `Truncates`: an action that only adds to what is written, and that is cut off where
     a limit is set (`cutTo`).

  3. **The crux (`Truncates.bind`)** — sequences are cut off where their members are.  If the first
     member is, the second is not begun, and it could not have taken back what was written.  So the
     place of the limit plays no part, whether it lies in a prompt, in an answer or between them.

  4. **Result (`full_output_cuts_off`)** — for sessions, and for answers to a list of expressions.
     Where the room ends before some line is read, that line and all behind it play no part.
-/
import Calculator.Proofs.Transcript

namespace Calculator.Shell

variable {α β : Type}

/-! ## Results side by side -/

/-- The output that an action leaves behind. -/
def outputOf : EStateM.Result Failure Output α → Output
  | .ok _ output | .error _ output => output

/-- How an action has ended. -/
def verdictOf : EStateM.Result Failure Output α → Except Failure α
  | .ok a _ => .ok a
  | .error failure _ => .error failure

/-- An action that has come to `full` without a limit comes to `cut` with room for `n` bytes. -/
structure CutOff (n : Nat) (full cut : EStateM.Result Failure Output α) : Prop where
  /-- What fits is written, and all ends as it does without the limit. -/
  of_le : (outputOf full).bytes.size ≤ n →
    (outputOf cut).bytes = (outputOf full).bytes ∧ verdictOf cut = verdictOf full
  /-- Of what does not fit the first bytes are written, and then the output is full. -/
  of_lt : n < (outputOf full).bytes.size →
    (outputOf cut).bytes = (outputOf full).bytes.extract 0 n ∧ verdictOf cut = .error .full

/-- An output with room for so many bytes. -/
def limited (n : Nat) (written : ByteArray) : Output := ⟨written, some n⟩

/-- What an action comes to with room for `n` bytes, given what it comes to without a limit. -/
def cutTo (n : Nat) (full : EStateM.Result Failure Output α) : EStateM.Result Failure Output α :=
  if (outputOf full).bytes.size ≤ n then
    match full with
    | .ok a output => .ok a (limited n output.bytes)
    | .error failure output => .error failure (limited n output.bytes)
  else .error .full (limited n ((outputOf full).bytes.extract 0 n))

variable {n : Nat} {full : EStateM.Result Failure Output α} {written : ByteArray}

theorem cutTo_ok (a : α) (h : written.size ≤ n) :
    cutTo n (.ok a (unlimited written)) = .ok a (limited n written) := if_pos h

theorem cutTo_error (failure : Failure) (h : written.size ≤ n) :
    cutTo n (.error failure (unlimited written) : EStateM.Result Failure Output α) =
      .error failure (limited n written) := if_pos h

theorem cutTo_of_lt (hfull : outputOf full = unlimited written) (h : n < written.size) :
    cutTo n full = .error .full (limited n (written.extract 0 n)) := by
  rw [cutTo.eq_def, hfull]
  exact if_neg (Nat.not_le.2 h)

/-- This is what is specified. -/
theorem cutOff_cutTo (n : Nat) (full : EStateM.Result Failure Output α) :
    CutOff n full (cutTo n full) := by
  refine ⟨fun hle => ?_, fun hlt => ?_⟩
  · rw [cutTo.eq_def, if_pos hle]
    cases full <;> exact ⟨rfl, rfl⟩
  · rw [cutTo.eq_def, if_neg (Nat.not_le.2 hlt)]
    exact ⟨rfl, rfl⟩

/-- The first bytes are not changed by what is written behind them. -/
theorem extract_append_of_le {before : ByteArray} (more : ByteArray) (h : n ≤ before.size) :
    (before ++ more).extract 0 n = before.extract 0 n := by
  rw [ByteArray.extract_append, Nat.sub_eq_zero_of_le h, Nat.zero_sub]
  simp

/-! ## Actions -/

/-- An action only adds to what is written, and a limit does nothing but cut it off. -/
structure Truncates (action : Action α) : Prop where
  appends : ∀ written, ∃ more,
    outputOf (action (unlimited written)) = unlimited (written ++ more)
  cut : ∀ n written, written.size ≤ n →
    action (limited n written) = cutTo n (action (unlimited written))

theorem truncates_pure (a : α) : Truncates (pure a : Action α) := by
  refine ⟨fun written => ⟨.empty, ?_⟩, fun n written h => ?_⟩
  · rw [ByteArray.append_empty]
    rfl
  · exact (cutTo_ok a h).symm

theorem truncates_throw (failure : Failure) : Truncates (throw failure : Action α) := by
  refine ⟨fun written => ⟨.empty, ?_⟩, fun n written h => ?_⟩
  · rw [ByteArray.append_empty]
    rfl
  · exact (cutTo_error failure h).symm

/-- A text that does not fit is cut off. -/
theorem truncates_write (text : String) : Truncates (write text) := by
  refine ⟨fun written => ⟨text.toUTF8, ?_⟩, fun n written h => ?_⟩
  · rw [write_of_unlimited rfl]
    rfl
  · have hfull : write text (unlimited written) =
        .ok () (unlimited (written ++ text.toUTF8)) := write_of_unlimited rfl
    rw [hfull]
    rfl

/-- **One after the other.**  A sequence is cut off where one of its members is. -/
theorem Truncates.bind {action : Action α} {next : α → Action β} (h : Truncates action)
    (hnext : ∀ a, Truncates (next a)) : Truncates (action >>= next) := by
  have hrun : ∀ output, (action >>= next) output =
      match action output with
      | .ok a output => next a output
      | .error failure output => .error failure output := by
    intro output
    show EStateM.bind action next output = _
    rw [EStateM.bind.eq_def]
    cases action output <;> rfl
  constructor
  · intro written
    obtain ⟨more, hmore⟩ := h.appends written
    rw [hrun]
    rcases hfirst : action (unlimited written) with ⟨a, output⟩ | ⟨failure, output⟩
    · rw [hfirst] at hmore
      obtain rfl : output = unlimited (written ++ more) := hmore
      obtain ⟨further, hfurther⟩ := (hnext a).appends (written ++ more)
      exact ⟨more ++ further, by rw [← ByteArray.append_assoc]; exact hfurther⟩
    · rw [hfirst] at hmore
      exact ⟨more, hmore⟩
  · intro n written hwritten
    obtain ⟨more, hmore⟩ := h.appends written
    rw [hrun, hrun, h.cut n written hwritten]
    rcases hfirst : action (unlimited written) with ⟨a, output⟩ | ⟨failure, output⟩
    · rw [hfirst] at hmore
      obtain rfl : output = unlimited (written ++ more) := hmore
      rcases Nat.lt_or_ge n (written ++ more).size with hlt | hle
      · -- the second member is not begun, and would have left the first bytes as they are
        obtain ⟨further, hfurther⟩ := (hnext a).appends (written ++ more)
        have hlt' : n < (written ++ more ++ further).size := by
          rw [ByteArray.size_append]
          omega
        rw [cutTo_of_lt rfl hlt, cutTo_of_lt hfurther hlt',
          extract_append_of_le further (Nat.le_of_lt hlt)]
      · rw [cutTo_ok a hle]
        exact (hnext a).cut n (written ++ more) hle
    · rw [hfirst] at hmore
      obtain rfl : output = unlimited (written ++ more) := hmore
      rcases Nat.lt_or_ge n (written ++ more).size with hlt | hle
      · rw [cutTo_of_lt rfl hlt, cutTo_of_lt rfl hlt]
      · rw [cutTo_error failure hle, cutTo_error failure hle]

variable {action : Action α} {before more : ByteArray}

/-- With room for so many bytes, the action is cut off. -/
theorem Truncates.empty_eq (h : Truncates action) (n : Nat) :
    action (Output.empty (some n)) = cutTo n (action (Output.empty none)) :=
  h.cut n .empty (Nat.zero_le n)

/-- That is what is specified. -/
theorem Truncates.cutOff (h : Truncates action) (n : Nat) :
    CutOff n (action (Output.empty none)) (action (Output.empty (some n))) := by
  rw [h.empty_eq n]
  exact cutOff_cutTo n _

/-- If what is written first has no room, nothing else counts. -/
theorem Truncates.eq_full (h : Truncates action)
    (hfull : outputOf (action (Output.empty none)) = unlimited (before ++ more))
    (hlt : n < before.size) :
    action (Output.empty (some n)) = .error .full (limited n (before.extract 0 n)) := by
  have hlt' : n < (before ++ more).size := by
    rw [ByteArray.size_append]
    omega
  rw [h.empty_eq n, cutTo_of_lt hfull hlt', extract_append_of_le more (Nat.le_of_lt hlt)]

/-! ## Sessions -/

variable {settings : Settings} {rest front : List ByteArray}

/-- Answering a line. -/
theorem truncates_respond (settings : Settings) (line : ByteArray) :
    Truncates (respond settings line) := by
  rw [respond]
  split
  · exact truncates_throw _
  · split
    · exact truncates_pure _
    · exact truncates_pure _
    · exact (truncates_write _).bind fun _ => truncates_pure _

/-- Going on with what has been read. -/
theorem truncates_proceed (settings : Settings) (line : Option ByteArray) :
    Truncates (proceed settings line) := by
  rcases line with _ | line
  · exact (truncates_write _).bind fun _ => truncates_pure _
  · exact truncates_respond settings line

/-- The end of a session. -/
theorem truncates_discard_proceed (settings : Settings) :
    Truncates (discard (proceed settings none)) :=
  (truncates_proceed settings none).bind fun _ => truncates_pure ()

/-- **A session is cut off** where its output is full. -/
theorem truncates_session (settings : Settings) (lines : List ByteArray) :
    Truncates (session settings lines) := by
  induction lines with
  | nil => exact (truncates_write _).bind fun _ => truncates_discard_proceed settings
  | cons line rest ih =>
    refine (truncates_write _).bind fun _ =>
      (truncates_proceed settings (some line)).bind fun goesOn => ?_
    cases goesOn
    · exact truncates_pure ()
    · exact ih

/-- Whatever lines there are, a session begins with a prompt. -/
theorem session_prompts (settings : Settings) (lines : List ByteArray) (written : ByteArray) :
    ∃ more, outputOf (session settings lines (unlimited written)) =
      unlimited (written ++ prompt.toUTF8 ++ more) := by
  have hprompt : ∀ {next : Unit → Action Unit}, (∀ u, Truncates (next u)) →
      ∃ more, outputOf ((write prompt >>= next) (unlimited written)) =
        unlimited (written ++ prompt.toUTF8 ++ more) := by
    intro next hnext
    have hrun : (write prompt >>= next) (unlimited written) =
        next () (unlimited (written ++ prompt.toUTF8)) := by
      show EStateM.bind (write prompt) next _ = _
      rw [EStateM.bind, write_of_unlimited rfl]
      rfl
    rw [hrun]
    exact (hnext ()).appends _
  rcases lines with _ | ⟨line, rest⟩
  · exact hprompt fun _ => truncates_discard_proceed settings
  · refine hprompt fun _ => (truncates_proceed settings (some line)).bind fun goesOn => ?_
    cases goesOn
    · exact truncates_pure ()
    · exact truncates_session settings rest

/-- Where the next prompt has no room behind the exchanges of some lines, the session ends before it
    reads another one. -/
theorem session_of_full (hfront : ∀ line ∈ front, Ordinary line)
    (hfull : n < (exchanges settings front ++ prompt).toUTF8.size) :
    session settings (front ++ rest) (Output.empty (some n)) =
      .error .full (limited n ((exchanges settings front ++ prompt).toUTF8.extract 0 n)) := by
  obtain ⟨more, hmore⟩ := session_prompts settings rest
    (.empty ++ (exchanges settings front).toUTF8)
  rw [append_toUTF8, ByteArray.empty_append, ByteArray.empty_append] at hmore
  have hbytes : outputOf (session settings (front ++ rest) (unlimited .empty)) =
      unlimited ((exchanges settings front ++ prompt).toUTF8 ++ more) := by
    rw [session_append hfront, ByteArray.empty_append]
    exact hmore
  exact (truncates_session settings (front ++ rest)).eq_full hbytes hfull

/-- A line that is not ordinary ends the session behind its prompt. -/
theorem outputOf_session_not_ordinary {line : ByteArray} (h : ¬ Ordinary line) :
    outputOf (session settings (line :: rest) (unlimited written)) =
      unlimited (written ++ prompt.toUTF8) := by
  rcases hdecode : String.fromUTF8? line with _ | text
  · rw [session_undecodable hdecode]
    rfl
  · have hexit : IsExit text := Classical.byContradiction fun hne => h ⟨text, hdecode, hne⟩
    rw [session_exit hdecode hexit]
    rfl

/-- If not all that a session writes has room, the room ends in front of some line, or else all lines
    have been read. -/
theorem exists_front_of_full {lines : List ByteArray} {before : ByteArray}
    (hfull : n < (outputOf (session settings lines (unlimited before))).bytes.size) :
    ∃ front rest, lines = front ++ rest ∧ (∀ line ∈ front, Ordinary line) ∧
      (n < (before ++ (exchanges settings front ++ prompt).toUTF8).size ∨ rest = []) := by
  induction lines generalizing before with
  | nil => exact ⟨[], [], rfl, List.forall_mem_nil _, .inr rfl⟩
  | cons line lines ih =>
    by_cases hline : Ordinary line
    · rw [session_ordinary hline] at hfull
      obtain ⟨front, rest, rfl, hfront, hroom⟩ := ih hfull
      refine ⟨line :: front, rest, rfl, List.forall_mem_cons.2 ⟨hline, hfront⟩, hroom.imp_left ?_⟩
      rw [append_toUTF8, ← String.append_assoc, exchanges, exchanges, List.map_cons,
        String.join_cons]
      exact id
    · rw [outputOf_session_not_ordinary hline] at hfull
      exact ⟨[], line :: lines, rfl, List.forall_mem_nil _, .inl hfull⟩

/-! ## Lists of answers -/

/-- The answers to some expressions. -/
def answers (settings : Settings) (texts : List String) : String :=
  String.join (texts.map (answer settings))

theorem writeAnswers_cons (settings : Settings) (text : String) (texts : List String) :
    writeAnswers settings (text :: texts) =
      (do write (answer settings text); writeAnswers settings texts) := rfl

theorem truncates_writeAnswers (settings : Settings) (texts : List String) :
    Truncates (writeAnswers settings texts) := by
  induction texts with
  | nil => exact truncates_pure ()
  | cons text texts ih =>
    rw [writeAnswers_cons]
    exact (truncates_write _).bind fun _ => ih

/-- Without a limit all answers are written. -/
theorem writeAnswers_unlimited (settings : Settings) (texts : List String) (written : ByteArray) :
    writeAnswers settings texts (unlimited written) =
      .ok () (unlimited (written ++ (answers settings texts).toUTF8)) := by
  induction texts generalizing written with
  | nil =>
    have hnothing : written ++ (answers settings []).toUTF8 = written := ByteArray.append_empty
    rw [hnothing]
    rfl
  | cons text texts ih =>
    rw [writeAnswers_cons]
    show EStateM.bind (write (answer settings text)) _ _ = _
    rw [EStateM.bind, write_of_unlimited rfl]
    show writeAnswers settings texts (unlimited (written ++ (answer settings text).toUTF8)) = _
    rw [ih, append_toUTF8, answers, answers, List.map_cons, String.join_cons]

/-- Where some answers have no room, those behind them are not asked for. -/
theorem writeAnswers_of_full {front : List String} (rest : List String)
    (hfull : n < (answers settings front).toUTF8.size) :
    writeAnswers settings (front ++ rest) (Output.empty (some n)) =
      .error .full (limited n ((answers settings front).toUTF8.extract 0 n)) := by
  have happend : answers settings (front ++ rest) =
      answers settings front ++ answers settings rest := by
    rw [answers, List.map_append, String.join_append]
    rfl
  have hbytes : outputOf (writeAnswers settings (front ++ rest) (unlimited .empty)) =
      unlimited ((answers settings front).toUTF8 ++ (answers settings rest).toUTF8) := by
    rw [writeAnswers_unlimited, happend, ← append_toUTF8, ByteArray.empty_append]
    rfl
  exact (truncates_writeAnswers settings (front ++ rest)).eq_full hbytes hfull

/-! ## The law -/

/-- **An output that fills up only cuts off what is written.**  Give a session room for `n` bytes.  If
    all that it writes without a limit has room, nothing changes, neither what is written nor how the
    session ends; otherwise the first `n` bytes are written, and it ends because the output is full.
    As soon as the exchanges of some lines and the prompt behind them have no room, what comes behind
    these lines plays no part: it is neither read nor answered.  This is so for all sessions for which
    the room is too small, but for those that have read all of their lines by then.  Answers to a list
    of expressions are cut off in the same way. -/
theorem full_output_cuts_off (settings : Settings) (n : Nat) :
    (∀ input, CutOff n (run settings input (Output.empty none))
      (run settings input (Output.empty (some n)))) ∧
    (∀ input front rest, inputLines input = front ++ rest → (∀ line ∈ front, Ordinary line) →
      n < (exchanges settings front ++ prompt).toUTF8.size →
      run settings input (Output.empty (some n)) =
        .error .full (limited n ((exchanges settings front ++ prompt).toUTF8.extract 0 n))) ∧
    (∀ input, n < (outputOf (run settings input (Output.empty none))).bytes.size →
      ∃ front rest, inputLines input = front ++ rest ∧ (∀ line ∈ front, Ordinary line) ∧
        (n < (exchanges settings front ++ prompt).toUTF8.size ∨ rest = [])) ∧
    (∀ texts, CutOff n (writeAnswers settings texts (Output.empty none))
      (writeAnswers settings texts (Output.empty (some n)))) ∧
    ∀ front rest, n < (answers settings front).toUTF8.size →
      writeAnswers settings (front ++ rest) (Output.empty (some n)) =
        .error .full (limited n ((answers settings front).toUTF8.extract 0 n)) := by
  refine ⟨fun input => (truncates_session settings _).cutOff n,
    fun input front rest hlines hfront hfull => ?_, fun input hfull => ?_,
    fun texts => (truncates_writeAnswers settings texts).cutOff n,
    fun front rest => writeAnswers_of_full rest⟩
  · rw [run, hlines]
    exact session_of_full hfront hfull
  · obtain ⟨front, rest, hlines, hfront, hroom⟩ := exists_front_of_full hfull
    rw [ByteArray.empty_append] at hroom
    exact ⟨front, rest, hlines, hfront, hroom⟩

-- the room ends inside the second prompt
example : (outputOf (run {} "1+1\n2".toUTF8 (Output.empty (some 45)))).bytes =
    (prompt ++ "Result: 2\nEn").toUTF8 := by
  decide +kernel

end Calculator.Shell
