/-
  What is accepted, and with what value.

  Problem: with nothing allowed behind an expression, which texts have a value, and which one?

  1. **Specification** — a text is accepted if what stands in it is what an expression yields, with
     parentheses nested within the limit.  No stray has a place in that, and nothing may be left
     over.  Its value is the meaning of the expression (`Phrase.eval`).

  2. **Outline** — the outline of a text ends well exactly for such a text, and its code is that of
     the expression (`Outline.yields_ofText`): rules read phrases, and the rule for what follows
     wants nothing there.

  3. **The crux (`evaluateWith_of_placed`)** — if the pieces of a text are those of an expression,
     the outcome is the meaning of that expression, value or fault.  Since the evaluation agrees
     with the outline, only the code of the expression is left to be run.

  4. **Result (`evaluateWith_eq_ok_iff_expression`)** — texts with a value are texts with an
     expression that has it, the expression is unique, and if it has a fault instead, that is the
     fault of its first literal or operator that fails.
-/
import Calculator.Proofs.Recognition
import Calculator.Proofs.TwoPasses

namespace Calculator

variable {maxDepth : Nat} {text : String}

/-- If nothing may follow, nothing does. -/
theorem Outline.yields_trailing {finish : Nat} {ahead rest : List Placed}
    {code : List Instruction} :
    (trailing finish .rejected ahead).Yields code rest ↔ code = [] ∧ ahead = [] ∧ rest = [] := by
  cases ahead with
  | nil =>
    constructor
    · intro h
      obtain ⟨hcode, hrest, _⟩ := yields_pull.1 h
      exact ⟨hcode, rfl, hrest⟩
    · rintro ⟨hcode, _, hrest⟩
      exact yields_pull.2 ⟨hcode, hrest, legible_nil⟩
  | cons piece behind =>
    constructor
    · intro h
      exact absurd h not_yields_fail
    · rintro ⟨_, hahead, _⟩
      cases hahead

/-- The outline ends well exactly if what stands in the text is an expression, and then its code is
    the code of that expression. -/
theorem Outline.yields_ofText {code : List Instruction} {rest : List Placed} :
    (ofText ⟨maxDepth, .rejected⟩ text).Yields code rest ↔
      rest = [] ∧ ∃ e : Expression, Placed.ofText text = e.placed ∧ e.nesting ≤ maxDepth ∧
        code = e.code := by
  have hreads := expr_reads maxDepth (Text.byteLength text.toList) maxDepth
  constructor
  · intro h
    obtain ⟨ahead, _, _, hpull, hrules, rfl⟩ := yields_bind.1 h
    obtain ⟨rfl, rfl, _⟩ := yields_pull.1 hpull
    obtain ⟨reached, _, _, hexpr, htrailing, rfl⟩ := yields_bind.1 hrules
    obtain ⟨rfl, rfl, rfl⟩ := yields_trailing.1 htrailing
    obtain ⟨e, hnesting, hplaced, rfl, _, _⟩ := (hreads _ _ _).1 hexpr
    refine ⟨rfl, e, ?_, hnesting, ?_⟩
    · rw [hplaced, List.append_nil]
    · rw [List.nil_append, List.append_nil]
  · rintro ⟨rfl, e, hplaced, hnesting, rfl⟩
    have hahead : Placed.ofText text = e.placed ++ [] := by rw [hplaced, List.append_nil]
    have hlegible : Legible (Placed.ofText text) := by
      rw [hahead]
      exact legible_placed_append e legible_nil
    refine yields_bind.2 ⟨_, [], e.code, yields_pull.2 ⟨rfl, rfl, hlegible⟩, ?_, rfl⟩
    refine yields_bind.2 ⟨[], e.code, [], ?_, yields_trailing.2 ⟨rfl, rfl, rfl⟩, ?_⟩
    · exact (hreads _ _ _).2 ⟨e, hnesting, hahead, rfl, stops_nil _, legible_nil⟩
    · rw [List.append_nil]

/-- **An expression has its meaning for an outcome.** -/
theorem evaluateWith_of_placed {e : Expression} (hplaced : Placed.ofText text = e.placed)
    (hnesting : e.nesting ≤ maxDepth) : evaluateWith ⟨maxDepth, .rejected⟩ text = e.eval := by
  have houtcome := outcome_ofText ⟨maxDepth, .rejected⟩ text
  obtain ⟨hcode, hending⟩ := Outline.yields_ofText.2 ⟨rfl, e, hplaced, hnesting, rfl⟩
  have hexecute : execute (Outline.ofText ⟨maxDepth, .rejected⟩ text).code [] =
      deliver e.eval [] := by
    rw [hcode, execute_code]
  rcases heval : e.eval with fault | value
  · rw [heval] at hexecute
    exact Option.some.inj (houtcome.symm.trans (Outline.outcome_eq_error.2 (.inl hexecute)))
  · rw [heval] at hexecute
    exact Option.some.inj (houtcome.symm.trans (Outline.outcome_eq_ok.2 ⟨hexecute, [], hending⟩))

/-- A text with a value is an expression. -/
theorem exists_expression_of_ok {value : Binary64}
    (h : evaluateWith ⟨maxDepth, .rejected⟩ text = .ok value) :
    ∃ e : Expression, Placed.ofText text = e.placed ∧ e.nesting ≤ maxDepth := by
  have houtcome : (Outline.ofText ⟨maxDepth, .rejected⟩ text).outcome = some (.ok value) := by
    rw [outcome_ofText, h]
  obtain ⟨_, rest, hending⟩ := Outline.outcome_eq_ok.1 houtcome
  obtain ⟨_, e, hplaced, hnesting, _⟩ := Outline.yields_ofText.1 ⟨rfl, hending⟩
  exact ⟨e, hplaced, hnesting⟩

/-- **Exactly the expressions are accepted, and each has its own meaning.**  The text has a value if
    and only if what stands in it is an expression, nested within the limit, that has this value.
    There is one such expression at most.  If it has no value, the outcome is the fault of its first
    literal or operator in post-order that fails, at the place of that literal or operator. -/
theorem evaluateWith_eq_ok_iff_expression (maxDepth : Nat) (text : String) :
    (∀ value, evaluateWith ⟨maxDepth, .rejected⟩ text = .ok value ↔
      ∃ e : Expression, Placed.ofText text = e.placed ∧ e.nesting ≤ maxDepth ∧
        e.eval = .ok value) ∧
    (∀ e e' : Expression, Placed.ofText text = e.placed → Placed.ofText text = e'.placed →
      e = e') ∧
    (∀ (e : Expression) (fault : Fault), Placed.ofText text = e.placed → e.nesting ≤ maxDepth →
      e.eval = .error fault →
      evaluateWith ⟨maxDepth, .rejected⟩ text = .error fault ∧
      ∃ before instruction behind stack, e.code = before ++ instruction :: behind ∧
        execute before [] = .ok stack ∧ instruction.run stack = .error (.fault fault) ∧
        fault.position = instruction.position ∧ fault.cause.IsArithmetic) := by
  refine ⟨fun value => ⟨fun h => ?_, ?_⟩, fun e e' h h' => ?_, fun e fault h hnesting heval => ?_⟩
  · obtain ⟨e, hplaced, hnesting⟩ := exists_expression_of_ok h
    refine ⟨e, hplaced, hnesting, ?_⟩
    rw [← evaluateWith_of_placed hplaced hnesting]
    exact h
  · rintro ⟨e, hplaced, hnesting, heval⟩
    rw [evaluateWith_of_placed hplaced hnesting]
    exact heval
  · exact Phrase.placed_injective (h.symm.trans h')
  · refine ⟨?_, Phrase.eval_eq_error heval⟩
    rw [evaluateWith_of_placed h hnesting]
    exact heval

example : evaluateWith ⟨1, .rejected⟩ "8 - 1 - (3 - 2) * 2" = .ok (.ofNat 5) := by decide +kernel
example : evaluateWith ⟨1, .rejected⟩ "1 - 2 / (3 - 3)" = .error ⟨.divisionByZero, 6⟩ := by
  decide +kernel

end Calculator
