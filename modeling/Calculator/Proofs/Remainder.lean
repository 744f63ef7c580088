/-
  What is left over behind an expression.

  Problem: when tokens may be left over, how much of a text is taken in, and how does the outcome
  compare with the one when they may not?

  1. **Specification** — `Takes`: the text begins with an expression, nested within the limit, and
     behind it comes the end or a token that no expression goes on with.  Nothing is said of what
     follows that token, which may be anything.

  2. **Outline** — the outline of a text goes through its expression and then deals with the rest
     (`Outline.ofText_eq_bind`).  If the rest is ignored it ends well exactly where an expression
     has been taken in (`Outline.yields_ofText_ignored`).

  3. **The crux (`Takes.unique`)** — there is one place to stop.  The expression has to be followed
     by something other than an operator, and only an operator could go on with it.

  4. **Result (`evaluateWith_ignored_eq_ok_iff_takes`)** — the two outcomes side by side.  A fault
     met before the rest is the same in both, since the rest is looked at last; a value stays a
     value if nothing is left over, and else the first token left over is at fault.
-/
import Calculator.Proofs.Acceptance

namespace Calculator

/-- What no expression goes on with: the end of the text, or a token that is no operator. -/
def EndsBefore (rest : List Placed) : Prop :=
  rest = [] ∨ ∃ token position behind, rest = ⟨.token token, position⟩ :: behind ∧
    ∀ op, token ≠ .operator op

/-- The text begins with an expression, which is as long as it can be, and goes on with the rest. -/
structure Takes (maxDepth : Nat) (text : String) (e : Expression) (rest : List Placed) : Prop where
  text_eq : Placed.ofText text = e.placed ++ rest
  nesting_le : e.nesting ≤ maxDepth
  ends : EndsBefore rest

variable {maxDepth : Nat} {text : String} {e : Expression} {rest : List Placed} {fault : Fault}

/-- An expression stops where nothing goes on with it, and the piece there is not a stray. -/
theorem endsBefore_iff : EndsBefore rest ↔ Stops (.chain .sum) rest ∧ Outline.Legible rest := by
  constructor
  · rintro (rfl | ⟨token, position, behind, rfl, htoken⟩)
    · exact ⟨stops_nil _, Outline.legible_nil⟩
    · exact ⟨stops_of_not_operator htoken, Outline.legible_token token position behind⟩
  · rintro ⟨hstop, hlegible⟩
    rcases rest with _ | ⟨⟨token | c, position⟩, behind⟩
    · exact .inl rfl
    · refine .inr ⟨token, position, behind, rfl, fun op hop => ?_⟩
      subst hop
      exact hstop op position behind rfl trivial
    · exact absurd rfl (hlegible c position behind)

/-- **There is one place to stop**, and one expression that ends there. -/
theorem Takes.unique {e' : Expression} {rest' : List Placed} (h : Takes maxDepth text e rest)
    (h' : Takes maxDepth text e' rest') : e = e' ∧ rest = rest' := by
  have hstop := (endsBefore_iff.1 h.ends).1
  have hstop' := (endsBefore_iff.1 h'.ends).1
  exact e.eq_of_placed_append e' rest rest' hstop hstop' (h.text_eq.symm.trans h'.text_eq)

/-! ## Outlines -/

namespace Outline

/-- The rest of a text is dealt with when its expression has been read. -/
theorem ofText_eq_bind (maxDepth : Nat) (leftOver : Trailing) (text : String) :
    ofText ⟨maxDepth, leftOver⟩ text =
      ofText ⟨maxDepth, .ignored⟩ text >>= trailing (Text.byteLength text.toList) leftOver := by
  rw [ofText, ofText]
  rcases hpull : (pull (Text.byteLength text.toList) (Placed.ofText text)).ending with fault | ahead
  · simp only [bind_of_error hpull]
    rfl
  · simp only [bind_of_ok hpull]
    rcases hexpr : (exprBy (Text.byteLength text.toList)
        (factorWithin maxDepth (Text.byteLength text.toList) maxDepth) ahead).ending with
      fault | rest
    · simp only [bind_of_error hexpr]
      rfl
    · simp only [bind_of_ok hexpr]
      rw [bind_of_ok rfl]
      simp only [trailing, List.append_assoc]
      rfl

/-- What follows a fault changes nothing. -/
theorem outcome_bind_of_error {α β : Type} {o : Outline α} {next : α → Outline β}
    (h : o.outcome = some (.error fault)) : (o >>= next).outcome = some (.error fault) := by
  rcases outcome_eq_error.1 h with hcode | ⟨hstack, hfails⟩
  · -- the code that fails is the first to be run
    refine outcome_eq_error.2 (.inl ?_)
    rcases hending : o.ending with fault' | a
    · rw [bind_of_error hending]
      exact hcode
    · rw [bind_of_ok hending, execute_append, hcode]
      rfl
  · have hending : o.ending = .error fault := hfails
    refine outcome_eq_error.2 (.inr ?_)
    rw [bind_of_error hending]
    exact ⟨hstack, rfl⟩

/-- If the rest is ignored, the outline ends well where an expression has been taken in. -/
theorem yields_ofText_ignored {code : List Instruction} :
    (ofText ⟨maxDepth, .ignored⟩ text).Yields code rest ↔
      ∃ e, Takes maxDepth text e rest ∧ code = e.code := by
  have hreads := expr_reads maxDepth (Text.byteLength text.toList) maxDepth
  constructor
  · intro h
    obtain ⟨ahead, _, _, hpull, hrules, rfl⟩ := yields_bind.1 h
    obtain ⟨rfl, rfl, _⟩ := yields_pull.1 hpull
    obtain ⟨reached, _, _, hexpr, htrailing, rfl⟩ := yields_bind.1 hrules
    obtain ⟨rfl, rfl⟩ := yields_pure.1 htrailing
    obtain ⟨e, hnesting, htext, rfl, hends⟩ := (hreads _ _ _).1 hexpr
    refine ⟨e, ⟨htext, hnesting, endsBefore_iff.2 hends⟩, ?_⟩
    rw [List.nil_append, List.append_nil]
  · rintro ⟨e, ⟨htext, hnesting, hends⟩, rfl⟩
    obtain ⟨hstop, hlegible⟩ := endsBefore_iff.1 hends
    have hahead : Legible (Placed.ofText text) := by
      rw [htext]
      exact legible_placed_append e hlegible
    refine yields_bind.2 ⟨_, [], e.code, yields_pull.2 ⟨rfl, rfl, hahead⟩, ?_, rfl⟩
    refine yields_bind.2 ⟨rest, e.code, [], ?_, yields_pure.2 ⟨rfl, rfl⟩, ?_⟩
    · exact (hreads _ _ _).2 ⟨e, hnesting, htext, rfl, hstop, hlegible⟩
    · rw [List.append_nil]

end Outline

/-! ## Outcomes -/

/-- Texts that begin with an expression, and no others, have a value if the rest is ignored: the
    value of the expression. -/
theorem exists_takes_iff {value : Binary64} :
    evaluateWith ⟨maxDepth, .ignored⟩ text = .ok value ↔
      ∃ e rest, Takes maxDepth text e rest ∧ e.eval = .ok value := by
  have houtcome := outcome_ofText ⟨maxDepth, .ignored⟩ text
  constructor
  · intro h
    rw [h] at houtcome
    obtain ⟨hcode, rest, hending⟩ := Outline.outcome_eq_ok.1 houtcome
    obtain ⟨e, htakes, he⟩ := Outline.yields_ofText_ignored.1 ⟨rfl, hending⟩
    refine ⟨e, rest, htakes, ?_⟩
    rw [he] at hcode
    exact execute_code_eq_ok.1 hcode
  · rintro ⟨e, rest, htakes, heval⟩
    obtain ⟨hcode, hending⟩ := Outline.yields_ofText_ignored.2 ⟨e, htakes, rfl⟩
    have hexecute : execute (Outline.ofText ⟨maxDepth, .ignored⟩ text).code [] = .ok [value] := by
      rw [hcode]
      exact execute_code_eq_ok.2 heval
    exact Option.some.inj
      (houtcome.symm.trans (Outline.outcome_eq_ok.2 ⟨hexecute, rest, hending⟩))

/-- A fault that is met although the rest is ignored does not lie in the rest. -/
theorem rejected_of_ignored_eq_error
    (h : evaluateWith ⟨maxDepth, .ignored⟩ text = .error fault) :
    evaluateWith ⟨maxDepth, .rejected⟩ text = .error fault := by
  have houtcome : (Outline.ofText ⟨maxDepth, .ignored⟩ text).outcome = some (.error fault) := by
    rw [outcome_ofText, h]
  have hrejected := outcome_ofText ⟨maxDepth, .rejected⟩ text
  rw [Outline.ofText_eq_bind, Outline.outcome_bind_of_error houtcome] at hrejected
  exact (Option.some.inj hrejected).symm

/-- If nothing may be left over and a token is, that token is at fault. -/
theorem rejected_of_takes_token {value : Binary64} {token : Token} {position : Nat}
    {behind : List Placed} (h : Takes maxDepth text e (⟨.token token, position⟩ :: behind))
    (heval : e.eval = .ok value) :
    evaluateWith ⟨maxDepth, .rejected⟩ text =
      .error ⟨.unexpected .endOfInput token.kind, position⟩ := by
  obtain ⟨hcode, hending⟩ := Outline.yields_ofText_ignored.2 ⟨e, h, rfl⟩
  have hbind := Outline.ofText_eq_bind maxDepth .rejected text
  rw [Outline.bind_of_ok hending] at hbind
  have hexecute : execute (Outline.ofText ⟨maxDepth, .rejected⟩ text).code [] = .ok [value] := by
    show execute _ [] = _
    rw [hbind, hcode, execute_append, execute_code, heval]
    rfl
  have hfails : (Outline.ofText ⟨maxDepth, .rejected⟩ text).Fails
      ⟨.unexpected .endOfInput token.kind, position⟩ := by
    rw [hbind]
    rfl
  exact Option.some.inj ((outcome_ofText _ _).symm.trans
    (Outline.outcome_eq_error.2 (.inr ⟨⟨_, hexecute⟩, hfails⟩)))

/-- What an expression at the beginning of a text comes to when nothing may be left over. -/
theorem rejected_of_takes {value : Binary64} (h : Takes maxDepth text e rest)
    (heval : e.eval = .ok value) :
    (rest = [] ∧ evaluateWith ⟨maxDepth, .rejected⟩ text = .ok value) ∨
    ∃ token position behind, rest = ⟨.token token, position⟩ :: behind ∧
      evaluateWith ⟨maxDepth, .rejected⟩ text =
        .error ⟨.unexpected .endOfInput token.kind, position⟩ := by
  rcases h.ends with rfl | ⟨token, position, behind, rfl, _⟩
  · have hplaced : Placed.ofText text = e.placed := by rw [h.text_eq, List.append_nil]
    refine .inl ⟨rfl, ?_⟩
    rw [evaluateWith_of_placed hplaced h.nesting_le]
    exact heval
  · exact .inr ⟨token, position, behind, rfl, rejected_of_takes_token h heval⟩

/-- A value that a text has when nothing may be left over is the one that it has anyhow. -/
theorem ignored_of_rejected_eq_ok {value : Binary64}
    (h : evaluateWith ⟨maxDepth, .rejected⟩ text = .ok value) :
    evaluateWith ⟨maxDepth, .ignored⟩ text = .ok value := by
  rcases hignored : evaluateWith ⟨maxDepth, .ignored⟩ text with fault | value'
  · rw [rejected_of_ignored_eq_error hignored] at h
    cases h
  · obtain ⟨e, rest, htakes, heval⟩ := exists_takes_iff.1 hignored
    rcases rejected_of_takes htakes heval with ⟨_, hrejected⟩ | ⟨_, _, _, _, hrejected⟩
    · rw [← hrejected]
      exact h
    · rw [hrejected] at h
      cases h

/-- A text that is an expression from its first piece to its last has the value of the expression,
    whatever becomes of tokens left over: there are none. -/
theorem evaluateWith_eq_eval {settings : Settings} (hplaced : Placed.ofText text = e.placed)
    (hnesting : e.nesting ≤ settings.maxDepth) : evaluateWith settings text = e.eval := by
  obtain ⟨maxDepth, trailing⟩ := settings
  have hrejected : evaluateWith ⟨maxDepth, .rejected⟩ text = e.eval :=
    evaluateWith_of_placed hplaced hnesting
  cases trailing with
  | rejected => exact hrejected
  | ignored =>
    rcases hignored : evaluateWith ⟨maxDepth, .ignored⟩ text with fault | value
    · rw [← hrejected, rejected_of_ignored_eq_error hignored]
    · obtain ⟨e', rest, htakes, heval⟩ := exists_takes_iff.1 hignored
      have hwhole : Takes maxDepth text e [] := ⟨by rw [hplaced, List.append_nil], hnesting, .inl rfl⟩
      obtain ⟨rfl, _⟩ := htakes.unique hwhole
      exact heval.symm

/-- **With the rest ignored, the one longest expression at the beginning of a text is taken.**  The
    text has a value if and only if there is such an expression and it has this value; it stops at
    one place at most.  If nothing may be left over, the value stands when nothing is, and otherwise
    the first token left over is at fault, whatever comes behind it.  All other faults are the same
    either way, and so a value that stands when nothing may be left over is also the value when the
    rest is ignored. -/
theorem evaluateWith_ignored_eq_ok_iff_takes (maxDepth : Nat) (text : String) :
    (∀ value, evaluateWith ⟨maxDepth, .ignored⟩ text = .ok value ↔
      ∃ e rest, Takes maxDepth text e rest ∧ e.eval = .ok value) ∧
    (∀ e rest e' rest', Takes maxDepth text e rest → Takes maxDepth text e' rest' →
      e = e' ∧ rest = rest') ∧
    (∀ e rest value, Takes maxDepth text e rest → e.eval = .ok value →
      (rest = [] ∧ evaluateWith ⟨maxDepth, .rejected⟩ text = .ok value) ∨
      ∃ token position behind, rest = ⟨.token token, position⟩ :: behind ∧
        evaluateWith ⟨maxDepth, .rejected⟩ text =
          .error ⟨.unexpected .endOfInput token.kind, position⟩) ∧
    (∀ fault, evaluateWith ⟨maxDepth, .ignored⟩ text = .error fault →
      evaluateWith ⟨maxDepth, .rejected⟩ text = .error fault) ∧
    (∀ value, evaluateWith ⟨maxDepth, .rejected⟩ text = .ok value →
      evaluateWith ⟨maxDepth, .ignored⟩ text = .ok value) := by
  refine ⟨fun value => exists_takes_iff, ?_, ?_, ?_, ?_⟩
  · intro e rest e' rest' h h'
    exact h.unique h'
  · intro e rest value h heval
    exact rejected_of_takes h heval
  · intro fault h
    exact rejected_of_ignored_eq_error h
  · intro value h
    exact ignored_of_rejected_eq_ok h

-- what follows the parenthesis is not looked at, whether it is ignored or not
example : evaluateWith ⟨0, .ignored⟩ "1 + 2 ) @" = .ok (.ofNat 3) := by decide +kernel
example : evaluateWith ⟨0, .rejected⟩ "1 + 2 ) @" =
    .error ⟨.unexpected .endOfInput .rightParen, 6⟩ := by
  decide +kernel

end Calculator
