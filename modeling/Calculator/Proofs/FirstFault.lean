/-
  Faults lie at the first piece that cannot be right.

  Problem: given the fault of a text, show that the tokens before it could still have become an
  expression, that with the piece at fault they no longer can, and that what is said to be wanted
  there would have been right.

  1. **Specification** — `Viable`: tokens that some sentence begins with.  `StandsAt` says what a
     text holds before a place and at it.  `Misfits` says that a token, or the end, is wrong there,
     and `Suits` that a kind is right.

  2. **The crux (`sentence_iff_after`)** — the sentences are what the automaton goes through from
     start to end.  No derivation has to be made up for that: on such tokens the rules cannot fail,
     since where they do the automaton refuses what follows, so what they read is the derivation.

  3. **Beginnings (`viable_iff_after`)** — hence a run that has got somewhere has come through the
     beginning of a sentence, because every run can be completed.

  4. **Result (`evaluateWith_fault_at_first_wrong_piece`)** — the three sorts of fault that do not
     lie in the numbers, each read off the verdict of the automaton.
-/
import Calculator.Proofs.Diagnosis
import Calculator.Proofs.Tokenization
import Calculator.Proofs.TwoPasses

namespace Calculator

open Expectation

variable {limit : Nat} {tokens : List Token} {reached : Expectation}

/-! ## Sentences and how they begin -/

/-- Tokens that some sentence begins with. -/
def Viable (limit : Nat) (tokens : List Token) : Prop := ∃ more, Sentence limit (tokens ++ more)

/-- **The sentences are what the automaton goes through from start to end.** -/
theorem sentence_iff_after :
    Sentence limit tokens ↔
      Expectation.after limit (.operand 0) (tokens.map Reading.token) = some (.operator 0) := by
  constructor
  · rintro ⟨e, hnesting, rfl⟩
    exact after_tokens hnesting
  · intro h
    -- the tokens as the pieces of a text; where they stand plays no part
    let ahead : List Placed := tokens.map fun token => ⟨.token token, 0⟩
    have hahead : ahead.map Placed.reading = tokens.map Reading.token := by
      rw [List.map_map]
      rfl
    rw [← hahead] at h
    let rule := Outline.exprBy 0 (Outline.factorWithin limit 0 limit)
    rcases hending : (rule ahead).ending with fault | rest
    · -- the rule cannot have failed, since the automaton goes on to the end
      obtain ⟨before, rest, reached, hsplit, hafter, hrefuses⟩ :=
        Outline.expr_diagnoses ⟨limit, .rejected⟩ 0 ahead fault hending
      rw [hsplit, List.map_append, after_append_of_some hafter] at h
      exact absurd h hrefuses.after_ne
    · obtain ⟨e, hnesting, hsplit, _, hstop, _⟩ :=
        (Outline.expr_reads limit 0 limit ahead _ rest).1 ⟨rfl, hending⟩
      rw [hsplit, List.map_append, e.map_reading_placed,
        after_append_of_some (after_tokens hnesting)] at h
      rcases rest with _ | ⟨⟨token | c, position⟩, behind⟩
      · refine ⟨e, hnesting, ?_⟩
        rw [hsplit, List.append_nil, e.map_reading_placed] at hahead
        exact (List.map_inj_right fun _ _ => Reading.token.inj).1 hahead
      · -- nothing but an operator goes on from there, and the expression has taken those in
        have hnext := Outline.next_eq_none_of_stops limit hstop fun _ => rfl
        rw [List.map_cons, after_cons, hnext] at h
        cases h
      · cases h

/-- **The beginnings of sentences are what the automaton goes through**, wherever it comes to. -/
theorem viable_iff_after :
    Viable limit tokens ↔
      ∃ s, Expectation.after limit (.operand 0) (tokens.map Reading.token) = some s := by
  constructor
  · rintro ⟨more, hsentence⟩
    rw [sentence_iff_after, List.map_append, after_append] at hsentence
    obtain ⟨s, hafter, _⟩ := Option.bind_eq_some_iff.1 hsentence
    exact ⟨s, hafter⟩
  · rintro ⟨s, hafter⟩
    obtain ⟨more, hmore⟩ := exists_completion limit s
    refine ⟨more, ?_⟩
    rw [sentence_iff_after, List.map_append, after_append_of_some hafter]
    exact hmore

/-- Whether a token can follow is a matter of one step. -/
theorem viable_append_iff {token : Token}
    (hafter : Expectation.after limit (.operand 0) (tokens.map Reading.token) = some reached) :
    Viable limit (tokens ++ [token]) ↔ ∃ s, next limit reached (.token token) = some s := by
  have hstep : ∀ s, Expectation.after limit (.operand 0) ((tokens ++ [token]).map Reading.token) =
      some s ↔ next limit reached (.token token) = some s := by
    intro s
    rw [List.map_append, after_append_of_some hafter, List.map_singleton, after_cons]
    cases next limit reached (.token token) <;> exact Iff.rfl
  rw [viable_iff_after]
  exact exists_congr hstep

/-! ## What stands at a place -/

/-- What a text holds before a place and at it: tokens and nothing else before it, and at it the
    given reading, or none if the text ends there. -/
def StandsAt (text : String) (tokens : List Token) (here : Option Reading) (position : Nat) :
    Prop :=
  ∃ before rest, Placed.ofText text = before ++ rest ∧
    before.map Placed.reading = tokens.map Reading.token ∧
    rest.head?.map Placed.reading = here ∧
    (rest.head?.map Placed.position).getD (Text.byteLength text.toList) = position

/-- A piece stands before the pieces behind it, and before the end of the text. -/
theorem Placed.position_lt {text : String} {before rest : List Placed} {piece : Placed}
    (h : ofText text = before ++ piece :: rest) :
    (∀ later ∈ rest, piece.position < later.position) ∧
      piece.position < Text.byteLength text.toList := by
  obtain ⟨front, back, hscan, _, hback⟩ := List.map_eq_append_iff.1 h
  obtain ⟨lexeme, more, rfl, rfl, rfl⟩ := List.map_eq_cons_iff.1 hback
  constructor
  · intro later hlater
    obtain ⟨lexeme', hmem, rfl⟩ := List.mem_map.1 hlater
    have hordered := (isCut_scan text.toList).ordered
    rw [hscan, List.pairwise_append] at hordered
    exact ((List.pairwise_cons.1 hordered.2.1).1 lexeme' hmem).1
  · have hmem : lexeme ∈ Lexeme.scan 0 text.toList := by simp [hscan]
    obtain ⟨s, _, hstop, _⟩ := (isCut_scan text.toList).spans lexeme hmem
    have hlength : s.stop ≤ Text.byteLength text.toList := by
      rw [Span.stop, congrArg Text.byteLength s.text_eq, Text.byteLength_append _ s.behind]
      omega
    have hbounds := (Lexeme.bounds_scan lexeme hmem).2
    show lexeme.start < Text.byteLength text.toList
    omega

/-- A kind that would have been right behind the tokens.  The end of the input is one only if
    nothing may be left over, and operators and opening parentheses are never asked for. -/
def Suits (settings : Settings) (tokens : List Token) : TokenKind → Prop
  | .integer => ∃ literal, Viable settings.maxDepth (tokens ++ [.integer literal])
  | .rightParen => Viable settings.maxDepth (tokens ++ [.rightParen])
  | .endOfInput => settings.trailing = .rejected ∧ Sentence settings.maxDepth tokens
  | .operator _ | .leftParen => False

/-- A token, or the end of the input, that is wrong behind the tokens: no sentence goes on like
    that. -/
def Misfits (limit : Nat) (tokens : List Token) (found : TokenKind) : Option Reading → Prop
  | some (.token token) =>
    token.kind = found ∧ found ≠ .endOfInput ∧ ¬ Viable limit (tokens ++ [token])
  | none => found = .endOfInput ∧ ¬ Sentence limit tokens
  | some (.stray _) => False

/-! ## Faults of a text -/

/-- What is said to be wanted would have been right. -/
theorem suits_wanted {settings : Settings}
    (hafter : Expectation.after settings.maxDepth (.operand 0) (tokens.map Reading.token) =
      some reached)
    (hend : reached = .operator 0 → settings.trailing = .rejected) :
    Suits settings tokens reached.wanted := by
  match reached with
  | .operand opened =>
    have hnext : next settings.maxDepth (.operand opened) (.token (.integer (.exact 0))) =
        some (.operator opened) := rfl
    exact ⟨.exact 0, (viable_append_iff hafter).2 ⟨_, hnext⟩⟩
  | .operator 0 => exact ⟨hend rfl, sentence_iff_after.2 hafter⟩
  | .operator (opened + 1) =>
    have hnext : next settings.maxDepth (.operator (opened + 1)) (.token .rightParen) =
        some (.operator opened) := rfl
    exact (viable_append_iff hafter).2 ⟨_, hnext⟩

/-- The end of the input is no piece of a text. -/
theorem Placed.reading_ne_end {text : String} {piece : Placed} (h : piece ∈ ofText text) :
    piece.reading ≠ .token .endOfInput := by
  obtain ⟨lexeme, hlexeme, rfl⟩ := List.mem_map.1 h
  exact Lexeme.reading_scan_ne_end lexeme hlexeme

/-- A fault that does not lie in the numbers is the one that the outline ends in. -/
theorem fails_of_evaluateWith {settings : Settings} {text : String} {fault : Fault}
    (h : evaluateWith settings text = .error fault) (hcause : ¬ fault.cause.IsArithmetic) :
    (Outline.ofText settings text).Fails fault := by
  have houtcome : (Outline.ofText settings text).outcome = some (.error fault) := by
    rw [outcome_ofText, h]
  rcases Outline.outcome_eq_error.1 houtcome with hcode | ⟨_, hfails⟩
  · -- an instruction that fails does so because of the numbers
    obtain ⟨_, _, _, _, _, _, hrun⟩ := execute_eq_error hcode
    exact absurd (Instruction.fault_of_run hrun).2 hcause
  · exact hfails

/-- A fault that does not lie in the numbers is what the automaton says of the text, behind tokens
    that it goes through. -/
theorem exists_refusal {settings : Settings} {text : String} {fault : Fault}
    (h : evaluateWith settings text = .error fault) (hcause : ¬ fault.cause.IsArithmetic) :
    ∃ tokens rest reached, StandsAt text tokens (rest.head?.map Placed.reading) fault.position ∧
      Expectation.after settings.maxDepth (.operand 0) (tokens.map Reading.token) = some reached ∧
      Refuses settings (Text.byteLength text.toList) reached rest fault ∧
      ∀ piece ∈ rest, piece.reading ≠ .token .endOfInput := by
  obtain ⟨before, rest, reached, hsplit, hafter, hrefuses⟩ :=
    Outline.ofText_breaks (fails_of_evaluateWith h hcause)
  obtain ⟨tokens, htokens⟩ := exists_tokens_of_after hafter
  have hposition : (rest.head?.map Placed.position).getD (Text.byteLength text.toList) =
      fault.position := by
    cases hrefuses <;> rfl
  refine ⟨tokens, rest, reached, ⟨before, rest, hsplit, htokens, rfl, hposition⟩, ?_, hrefuses, ?_⟩
  · rw [← htokens]
    exact hafter
  · intro piece hpiece
    have hmem : piece ∈ Placed.ofText text := by
      rw [hsplit]
      exact List.mem_append_right before hpiece
    exact Placed.reading_ne_end hmem

section

variable {settings : Settings} {text : String} {fault : Fault}

/-- A token that is not expected is one that no sentence has there, and the kind that is expected is
    one that some sentence has. -/
theorem misfits_of_unexpected {expected found : TokenKind}
    (h : evaluateWith settings text = .error fault)
    (hcause : fault.cause = .unexpected expected found) :
    ∃ tokens here, StandsAt text tokens here fault.position ∧
      Misfits settings.maxDepth tokens found here ∧ Suits settings tokens expected := by
  have hsyntax : ¬ fault.cause.IsArithmetic := by simp [hcause, Cause.IsArithmetic]
  obtain ⟨tokens, rest, reached, hstands, hafter, hrefuses, hno_end⟩ := exists_refusal h hsyntax
  refine ⟨tokens, _, hstands, ?_⟩
  cases hrefuses with
  | stray _ c position behind => cases hcause
  | tooDeep opened position behind hfull => cases hcause
  | misplaced _ token position behind hnext hend =>
    cases hcause
    have hkind : token.kind ≠ .endOfInput := by
      rw [ne_eq, Token.kind_eq_endOfInput]
      rintro rfl
      exact hno_end _ List.mem_cons_self rfl
    have hwrong : ¬ Viable settings.maxDepth (tokens ++ [token]) := by
      rw [viable_append_iff hafter, hnext]
      rintro ⟨s, hs⟩
      cases hs
    exact ⟨⟨rfl, hkind, hwrong⟩, suits_wanted hafter hend⟩
  | ended _ hmore =>
    cases hcause
    have hwrong : ¬ Sentence settings.maxDepth tokens := by
      rw [sentence_iff_after, hafter]
      exact fun heq => hmore (Option.some.inj heq)
    exact ⟨⟨rfl, hwrong⟩, suits_wanted hafter fun heq => absurd heq hmore⟩

/-- A parenthesis that is nested too deep would be right with one more level, and with no fewer. -/
theorem viable_succ_of_nestedTooDeep (h : evaluateWith settings text = .error fault)
    (hcause : fault.cause = .nestedTooDeep limit) :
    limit = settings.maxDepth ∧
      ∃ tokens, StandsAt text tokens (some (.token .leftParen)) fault.position ∧
        Viable settings.maxDepth tokens ∧
        Viable (settings.maxDepth + 1) (tokens ++ [.leftParen]) ∧
        ¬ Viable settings.maxDepth (tokens ++ [.leftParen]) := by
  have hsyntax : ¬ fault.cause.IsArithmetic := by simp [hcause, Cause.IsArithmetic]
  obtain ⟨tokens, rest, reached, hstands, hafter, hrefuses, -⟩ := exists_refusal h hsyntax
  cases hrefuses with
  | stray _ c position behind => cases hcause
  | tooDeep opened position behind hfull =>
    cases hcause
    refine ⟨rfl, tokens, hstands, viable_iff_after.2 ⟨_, hafter⟩, ?_, ?_⟩
    · -- no more than the limit are open, so that one more level admits one more
      have hopened : opened ≤ settings.maxDepth := opened_le_of_after hafter (Nat.zero_le _)
      have hlt : opened < settings.maxDepth + 1 := by omega
      exact (viable_append_iff (after_mono (Nat.le_succ _) hafter)).2 ⟨_, if_pos hlt⟩
    · rw [viable_append_iff hafter, next, if_neg hfull]
      rintro ⟨s, hs⟩
      cases hs
  | misplaced _ token position behind hnext hend => cases hcause
  | ended _ hmore => cases hcause

/-- A stray is reported behind tokens that begin a sentence. -/
theorem viable_of_strayCharacter {c : Char} (h : evaluateWith settings text = .error fault)
    (hcause : fault.cause = .strayCharacter c) :
    ∃ tokens, StandsAt text tokens (some (.stray c)) fault.position ∧
      Viable settings.maxDepth tokens := by
  have hsyntax : ¬ fault.cause.IsArithmetic := by simp [hcause, Cause.IsArithmetic]
  obtain ⟨tokens, rest, reached, hstands, hafter, hrefuses, -⟩ := exists_refusal h hsyntax
  cases hrefuses with
  | stray _ c' position behind =>
    cases hcause
    exact ⟨tokens, hstands, viable_iff_after.2 ⟨_, hafter⟩⟩
  | tooDeep opened position behind hfull => cases hcause
  | misplaced _ token position behind hnext hend => cases hcause
  | ended _ hmore => cases hcause

/-- **Faults of a text lie at the first piece that cannot be right.**  No sentence goes on with a
    token that is reported, or ends where the end is; the kind that is said to be wanted would have
    been right.  A parenthesis is too deep only where one more level would do.  And a stray is
    reported only behind tokens that begin a sentence, never behind another fault. -/
theorem evaluateWith_fault_at_first_wrong_piece (h : evaluateWith settings text = .error fault) :
    (∀ expected found, fault.cause = .unexpected expected found →
      ∃ tokens here, StandsAt text tokens here fault.position ∧
        Misfits settings.maxDepth tokens found here ∧ Suits settings tokens expected) ∧
    (∀ limit, fault.cause = .nestedTooDeep limit →
      limit = settings.maxDepth ∧
      ∃ tokens, StandsAt text tokens (some (.token .leftParen)) fault.position ∧
        Viable settings.maxDepth tokens ∧
        Viable (settings.maxDepth + 1) (tokens ++ [.leftParen]) ∧
        ¬ Viable settings.maxDepth (tokens ++ [.leftParen])) ∧
    (∀ c, fault.cause = .strayCharacter c →
      ∃ tokens, StandsAt text tokens (some (.stray c)) fault.position ∧
        Viable settings.maxDepth tokens) := by
  refine ⟨?_, ?_, ?_⟩
  · intro expected found hcause
    exact misfits_of_unexpected h hcause
  · intro limit hcause
    exact viable_succ_of_nestedTooDeep h hcause
  · intro c hcause
    exact viable_of_strayCharacter h hcause

end

/-- A parenthesis that is not closed: the end is wrong where it is, and closing it would do. -/
theorem unclosed_parenthesis_wrong_at_end :
    evaluateWith {} "(1 + 2" = .error ⟨.unexpected .rightParen .endOfInput, 6⟩ ∧
      ∃ tokens here, StandsAt "(1 + 2" tokens here 6 ∧ Misfits 256 tokens .endOfInput here ∧
        Suits {} tokens .rightParen := by
  have h : evaluateWith {} "(1 + 2" = .error ⟨.unexpected .rightParen .endOfInput, 6⟩ := by
    decide +kernel
  exact ⟨h, (evaluateWith_fault_at_first_wrong_piece h).1 _ _ rfl⟩

end Calculator
