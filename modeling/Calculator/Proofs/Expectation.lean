/-
  What may come next.

  Problem: of tokens read so far, say whether an expression can still become of them, and what has
  to come next, without looking at how they are parsed.

  1. **Automaton** — `Expectation`: what is wanted next is an operand or something behind one, and
     so many parentheses are open.  That is all that matters: precedence decides how tokens are
     grouped, not which of them may follow one another.  `next` is one step, `after` a run.

  2. **Invariant** — no more parentheses are open than the limit allows (`opened_le_of_after`), and
     a higher limit stops no run that a lower one lets through (`after_mono`).

  3. **The crux (`after_placed`)** — where an operand is wanted, a phrase takes the automaton to
     where something behind it is wanted, and leaves the parentheses that were open open.  So the
     phrases that a rule has read tell where the automaton stands, whatever rules are still waiting
     for the rest of theirs.

  4. **Completion (`exists_completion`)** — from wherever a run has come to, some tokens lead to the
     end of an expression: an operand if one is wanted, and then the missing parentheses.
-/
import Calculator.Proofs.Grammar

namespace Calculator

/-! ## The automaton -/

/-- What is wanted next, and how many parentheses are open. -/
inductive Expectation where
  | operand (opened : Nat)
  /-- An operator, a closing parenthesis or the end. -/
  | operator (opened : Nat)
  deriving DecidableEq

namespace Expectation

/-- How many parentheses are open. -/
def opened : Expectation → Nat
  | .operand opened | .operator opened => opened

/-- One step, if there is one. -/
def next (limit : Nat) : Expectation → Reading → Option Expectation
  | .operand opened, .token (.integer _) => some (.operator opened)
  | .operand opened, .token .leftParen =>
    if opened < limit then some (.operand (opened + 1)) else none
  | .operator opened, .token (.operator _) => some (.operand opened)
  | .operator (opened + 1), .token .rightParen => some (.operator opened)
  | _, _ => none

/-- Where the automaton is after some readings, if it gets that far. -/
def after (limit : Nat) (s : Expectation) (readings : List Reading) : Option Expectation :=
  readings.foldlM (next limit) s

variable {limit : Nat} {s s' : Expectation}

theorem after_cons (reading : Reading) (readings : List Reading) :
    after limit s (reading :: readings) =
      (next limit s reading).bind fun reached => after limit reached readings := by
  rw [after, List.foldlM_cons]
  rfl

theorem after_append (front back : List Reading) :
    after limit s (front ++ back) =
      (after limit s front).bind fun reached => after limit reached back := by
  rw [after, List.foldlM_append]
  rfl

/-- A run through a first part can be gone on with from where it has come to. -/
theorem after_append_of_some {front : List Reading} (h : after limit s front = some s')
    (back : List Reading) : after limit s (front ++ back) = after limit s' back := by
  rw [after_append, h]
  rfl

/-- All that a step can be. -/
theorem next_cases {reading : Reading} (h : next limit s reading = some s') :
    (∃ opened literal, s = .operand opened ∧ reading = .token (.integer literal) ∧
      s' = .operator opened) ∨
    (∃ opened, s = .operand opened ∧ reading = .token .leftParen ∧ opened < limit ∧
      s' = .operand (opened + 1)) ∨
    (∃ opened op, s = .operator opened ∧ reading = .token (.operator op) ∧
      s' = .operand opened) ∨
    ∃ opened, s = .operator (opened + 1) ∧ reading = .token .rightParen ∧
      s' = .operator opened := by
  rw [next.eq_def] at h
  split at h
  case h_1 opened literal =>
    cases h
    exact .inl ⟨opened, literal, rfl, rfl, rfl⟩
  case h_2 opened =>
    split at h
    · next hlt =>
      cases h
      exact .inr (.inl ⟨opened, rfl, rfl, hlt, rfl⟩)
    · cases h
  case h_3 opened op =>
    cases h
    exact .inr (.inr (.inl ⟨opened, op, rfl, rfl, rfl⟩))
  case h_4 opened =>
    cases h
    exact .inr (.inr (.inr ⟨opened, rfl, rfl, rfl⟩))
  case h_5 => cases h

/-! ## Invariants -/

/-- A step opens no parenthesis beyond the limit. -/
theorem opened_le_of_next {reading : Reading} (h : next limit s reading = some s')
    (hle : s.opened ≤ limit) : s'.opened ≤ limit := by
  rcases next_cases h with ⟨opened, literal, rfl, _, rfl⟩ | ⟨opened, rfl, _, hlt, rfl⟩ |
    ⟨opened, op, rfl, _, rfl⟩ | ⟨opened, rfl, _, rfl⟩
  · exact hle
  · exact hlt
  · exact hle
  · exact Nat.le_of_succ_le hle

/-- Nor does a run. -/
theorem opened_le_of_after {readings : List Reading} :
    ∀ {s : Expectation}, after limit s readings = some s' → s.opened ≤ limit →
      s'.opened ≤ limit := by
  induction readings with
  | nil =>
    intro s h hle
    cases h
    exact hle
  | cons reading readings ih =>
    intro s h hle
    rw [after_cons] at h
    obtain ⟨reached, hnext, hafter⟩ := Option.bind_eq_some_iff.1 h
    exact ih hafter (opened_le_of_next hnext hle)

/-- A step under a limit is one under a higher limit. -/
theorem next_mono {limit' : Nat} (hlimit : limit ≤ limit') {reading : Reading}
    (h : next limit s reading = some s') : next limit' s reading = some s' := by
  rcases next_cases h with ⟨opened, literal, rfl, rfl, rfl⟩ | ⟨opened, rfl, rfl, hlt, rfl⟩ |
    ⟨opened, op, rfl, rfl, rfl⟩ | ⟨opened, rfl, rfl, rfl⟩
  · rfl
  · have hlt' : opened < limit' := Nat.lt_of_lt_of_le hlt hlimit
    exact if_pos hlt'
  · rfl
  · rfl

/-- And so is a run. -/
theorem after_mono {limit' : Nat} (hlimit : limit ≤ limit') {readings : List Reading} :
    ∀ {s : Expectation}, after limit s readings = some s' → after limit' s readings = some s' := by
  induction readings with
  | nil => exact id
  | cons reading readings ih =>
    intro s h
    rw [after_cons] at h ⊢
    obtain ⟨reached, hnext, hafter⟩ := Option.bind_eq_some_iff.1 h
    rw [next_mono hlimit hnext]
    exact ih hafter

/-- Only tokens are gone through. -/
theorem exists_tokens_of_after {readings : List Reading} :
    ∀ {s : Expectation}, after limit s readings = some s' →
      ∃ tokens : List Token, readings = tokens.map Reading.token := by
  induction readings with
  | nil => exact fun _ => ⟨[], rfl⟩
  | cons reading readings ih =>
    intro s h
    rw [after_cons] at h
    obtain ⟨reached, hnext, hafter⟩ := Option.bind_eq_some_iff.1 h
    obtain ⟨tokens, rfl⟩ := ih hafter
    rcases reading with token | c
    · exact ⟨token :: tokens, rfl⟩
    · rcases next_cases hnext with ⟨_, _, _, h, _⟩ | ⟨_, _, h, _⟩ | ⟨_, _, _, h, _⟩ |
        ⟨_, _, h, _⟩ <;> cases h

end Expectation

/-! ## Phrases -/

/-- What is wanted where a phrase begins: an operand, unless it is the rounds of a chain. -/
def Nonterminal.entry (opened : Nat) : Nonterminal → Expectation
  | .operand _ | .chain _ => .operand opened
  | .rounds _ => .operator opened

namespace Expectation

variable {limit : Nat}

/-- **A phrase is gone through** wherever it may stand, and behind it the same parentheses are open.
    The induction is on the phrase, for any number of them, since there is one more inside a pair of
    parentheses. -/
theorem after_placed {k : Nonterminal} (e : Phrase k) :
    ∀ opened, opened + e.nesting ≤ limit →
      after limit (k.entry opened) (e.placed.map Placed.reading) = some (.operator opened) := by
  induction e with
  | integer literal position =>
    intro opened _
    rfl
  | group opening inner closing ih =>
    intro opened h
    have hinside : opened + 1 + inner.nesting ≤ limit := by
      rw [Phrase.nesting] at h
      omega
    have hopen : opened < limit := by omega
    simp only [Phrase.placed, List.map_cons, List.map_append, List.map_nil]
    rw [after_cons, Nonterminal.entry, next, if_pos hopen]
    show after limit (.operand (opened + 1)) _ = _
    exact after_append_of_some (ih (opened + 1) hinside) _
  | term inner ih => exact ih
  | chain first more ih₁ ih₂ =>
    intro opened h
    have hboth : opened + first.nesting ≤ limit ∧ opened + more.nesting ≤ limit := by
      rw [Phrase.nesting] at h
      omega
    rw [Phrase.placed, List.map_append]
    exact (after_append_of_some (ih₁ opened hboth.1) _).trans (ih₂ opened hboth.2)
  | done =>
    intro opened _
    rfl
  | round op position hlevel right more ih₁ ih₂ =>
    intro opened h
    have hboth : opened + right.nesting ≤ limit ∧ opened + more.nesting ≤ limit := by
      rw [Phrase.nesting] at h
      omega
    rw [Phrase.placed, List.map_cons, List.map_append, after_cons]
    show after limit (.operand opened) _ = _
    exact (after_append_of_some (ih₁ opened hboth.1) _).trans (ih₂ opened hboth.2)

/-- An expression is gone through from the start to where it may end. -/
theorem after_tokens {e : Expression} (h : e.nesting ≤ limit) :
    after limit (.operand 0) (e.tokens.map Reading.token) = some (.operator 0) := by
  rw [← e.map_reading_placed]
  exact after_placed e 0 (by omega)

/-! ## Completion -/

/-- Behind an operand, the missing parentheses complete an expression. -/
theorem after_replicate (opened : Nat) :
    after limit (.operator opened) ((List.replicate opened .rightParen).map Reading.token) =
      some (.operator 0) := by
  induction opened with
  | zero => rfl
  | succ opened ih => exact ih

/-- **Wherever a run has come to, it can be completed.** -/
theorem exists_completion (limit : Nat) (s : Expectation) :
    ∃ tokens : List Token, after limit s (tokens.map Reading.token) = some (.operator 0) := by
  cases s with
  | operand opened =>
    exact ⟨.integer (.exact 0) :: List.replicate opened .rightParen, after_replicate opened⟩
  | operator opened => exact ⟨List.replicate opened .rightParen, after_replicate opened⟩

end Expectation

end Calculator
