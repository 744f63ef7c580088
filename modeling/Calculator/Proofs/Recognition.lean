/-
  The rules recognise their phrases.

  Problem: what a rule reads is a phrase of its nonterminal, every phrase is read, and reading takes
  in as much as belongs to the phrase and nothing else.

  1. **Specification** — `Begins`: the pieces ahead begin with a phrase whose parentheses are nested
     within the budget, which stops where the rest begins, and whose code is the code written.  What
     a chain and its rounds begin with is told by one step of the grammar (`begins_chain`,
     `begins_round`, `begins_done`).

  2. **The crux (`rounds_reads`)** — a rule for operands that reads operands gives rounds that read
     rounds.  The induction is on the bound: each round uses up a piece, so a bound that covers the
     pieces ahead covers those behind the round, and when the bound is used up nothing is ahead.

  3. **Assembly** — chains from rounds, terms and expressions from chains, and factors by induction
     on how many parentheses may still be opened: the expression inside a parenthesis has one less.
-/
import Calculator.Proofs.Outline

namespace Calculator.Outline

/-- The pieces ahead begin with a phrase of the given sort, which has the given code and leaves the
    given rest. -/
def Begins (k : Nonterminal) (budget : Nat) (ahead : List Placed) (code : List Instruction)
    (rest : List Placed) : Prop :=
  ∃ e : Phrase k, e.nesting ≤ budget ∧ ahead = e.placed ++ rest ∧ code = e.code ∧ Stops k rest ∧
    Legible rest

/-- The rule reads phrases of the given sort, and those only. -/
def Reads (rule : Rule) (k : Nonterminal) (budget : Nat) : Prop :=
  ∀ ahead code rest, (rule ahead).Yields code rest ↔ Begins k budget ahead code rest

variable {limit finish budget : Nat} {level : Level}

section

variable {k : Nonterminal} {ahead rest : List Placed} {code : List Instruction}

/-- Behind a phrase it has stopped, and there is no stray. -/
theorem Begins.behind (h : Begins k budget ahead code rest) : Stops k rest ∧ Legible rest := by
  obtain ⟨_, _, _, _, hstop, hlegible⟩ := h
  exact ⟨hstop, hlegible⟩

/-- Nor is there one in front of it. -/
theorem Begins.legible (h : Begins k budget ahead code rest) : Legible ahead := by
  obtain ⟨e, _, rfl, _, _, hlegible⟩ := h
  exact legible_placed_append e hlegible

/-- What follows a phrase is no longer than what the phrase begins. -/
theorem Begins.length_le (h : Begins k budget ahead code rest) : rest.length ≤ ahead.length := by
  obtain ⟨e, _, rfl, _⟩ := h
  rw [List.length_append]
  omega

end

/-! ## Single tokens -/

/-- A piece becomes the lookahead unless it is a stray. -/
@[simp] theorem yields_pull {ahead rest : List Placed} {code : List Instruction} :
    (pull finish ahead).Yields code rest ↔ code = [] ∧ rest = ahead ∧ Legible ahead := by
  constructor
  · intro h
    match ahead, h with
    | [], ⟨rfl, h⟩ =>
      cases h
      exact ⟨rfl, rfl, legible_nil⟩
    | ⟨.token token, position⟩ :: behind, ⟨rfl, h⟩ =>
      cases h
      exact ⟨rfl, rfl, legible_token _ _ _⟩
    | ⟨.stray c, position⟩ :: behind, h => exact absurd h not_yields_fail
  · rintro ⟨rfl, rfl, h⟩
    match rest, h with
    | [], _ => exact ⟨rfl, rfl⟩
    | ⟨.token token, position⟩ :: behind, _ => exact ⟨rfl, rfl⟩
    | ⟨.stray c, position⟩ :: behind, h => exact absurd rfl (h c position behind)

/-- What is closed is closed by a parenthesis. -/
theorem yields_close {ahead rest : List Placed} {code : List Instruction} :
    (close finish ahead).Yields code rest ↔
      code = [] ∧ Legible rest ∧ ∃ position, ahead = ⟨.token .rightParen, position⟩ :: rest := by
  constructor
  · intro h
    rw [close.eq_def] at h
    split at h
    · next position behind =>
      obtain ⟨rfl, rfl, hlegible⟩ := yields_pull.1 h
      exact ⟨rfl, hlegible, position, rfl⟩
    · exact absurd h not_yields_fail
  · rintro ⟨rfl, hlegible, position, rfl⟩
    exact yields_pull.2 ⟨rfl, rfl, hlegible⟩

/-- The next operator of a level is the piece in front. -/
theorem operator?_eq_some {ahead behind : List Placed} {op : Operator} {position : Nat} :
    operator? level ahead = some (op, position, behind) ↔
      op.level = level ∧ ahead = ⟨.token (.operator op), position⟩ :: behind := by
  constructor
  · intro h
    rw [operator?.eq_def] at h
    split at h
    · split at h
      · next hlevel =>
        cases h
        exact ⟨hlevel, rfl⟩
      · cases h
    · cases h
  · rintro ⟨hlevel, rfl⟩
    exact if_pos hlevel

/-- Rounds stop where their operands stop and no operator of their level comes next. -/
theorem stops_rounds {ahead : List Placed} (hstop : Stops (.operand level) ahead)
    (hnone : operator? level ahead = none) : Stops (.rounds level) ahead := by
  intro op position behind heq hcontinues
  rcases Nonterminal.continues_rounds_iff.1 hcontinues with hoperand | hlevel
  · exact hstop op position behind heq hoperand
  · rw [operator?_eq_some.2 ⟨hlevel, heq⟩] at hnone
    cases hnone

/-! ## Chains -/

/-- Rounds that begin where no operator of the level stands are none. -/
theorem begins_done {ahead rest : List Placed} {code : List Instruction}
    (hstop : Stops (.operand level) ahead) (hlegible : Legible ahead)
    (hnone : operator? level ahead = none) :
    Begins (.rounds level) budget ahead code rest ↔ code = [] ∧ rest = ahead := by
  constructor
  · rintro ⟨e, _, hahead, hcode, _, _⟩
    cases e with
    | done => exact ⟨hcode, hahead.symm⟩
    | round op position h right more =>
      rw [operator?_eq_some.2 ⟨h, hahead⟩] at hnone
      cases hnone
  · rintro ⟨rfl, rfl⟩
    exact ⟨.done, Nat.zero_le _, rfl, rfl, stops_rounds hstop hnone, hlegible⟩

/-- Rounds that begin with an operator of the level go on with an operand and with rounds. -/
theorem begins_round {op : Operator} {position : Nat} {behind rest : List Placed}
    {code : List Instruction} (hlevel : op.level = level) :
    Begins (.rounds level) budget (⟨.token (.operator op), position⟩ :: behind) code rest ↔
      ∃ reached before after, Begins (.operand level) budget behind before reached ∧
        Begins (.rounds level) budget reached after rest ∧
        code = before ++ .apply op position :: after := by
  constructor
  · rintro ⟨e, hnesting, hahead, rfl, hrest, hlegible⟩
    cases e with
    | done =>
      exact absurd (Nonterminal.continues_of_level hlevel).1
        (hrest op position behind hahead.symm)
    | round op' position' hlevel' right more =>
      simp only [Phrase.placed, List.cons_append, List.append_assoc, List.cons.injEq,
        Placed.mk.injEq, Reading.token.injEq, Token.operator.injEq] at hahead
      obtain ⟨⟨rfl, rfl⟩, rfl⟩ := hahead
      obtain ⟨hright, hmore⟩ := Nat.max_le.1 hnesting
      have hbetween := legible_placed_append more hlegible
      exact ⟨more.placed ++ rest, right.code, more.code,
        ⟨right, hright, rfl, rfl, stops_operand_append more hrest, hbetween⟩,
        ⟨more, hmore, rfl, rfl, hrest, hlegible⟩, rfl⟩
  · rintro ⟨_, _, _, ⟨right, hright, rfl, rfl, _, _⟩, ⟨more, hmore, rfl, rfl, hrest, hlegible⟩, rfl⟩
    refine ⟨.round op position hlevel right more, Nat.max_le.2 ⟨hright, hmore⟩, ?_, rfl, hrest,
      hlegible⟩
    simp only [Phrase.placed, List.cons_append, List.append_assoc]

/-- A chain is an operand and rounds. -/
theorem begins_chain {ahead rest : List Placed} {code : List Instruction} :
    Begins (.chain level) budget ahead code rest ↔
      ∃ reached before after, Begins (.operand level) budget ahead before reached ∧
        Begins (.rounds level) budget reached after rest ∧ code = before ++ after := by
  have hstops : Stops (.chain level) rest ↔ Stops (.rounds level) rest := by
    cases level <;> exact Iff.rfl
  constructor
  · rintro ⟨e, hnesting, rfl, rfl, hrest, hlegible⟩
    cases e with
    | chain first more =>
      obtain ⟨hfirst, hmore⟩ := Nat.max_le.1 hnesting
      rw [hstops] at hrest
      refine ⟨more.placed ++ rest, first.code, more.code, ⟨first, hfirst, ?_, rfl,
        stops_operand_append more hrest, legible_placed_append more hlegible⟩,
        ⟨more, hmore, rfl, rfl, hrest, hlegible⟩, rfl⟩
      rw [Phrase.placed, List.append_assoc]
  · rintro ⟨_, _, _, ⟨first, hfirst, rfl, rfl, _, _⟩, ⟨more, hmore, rfl, rfl, hrest, hlegible⟩, rfl⟩
    refine ⟨.chain first more, Nat.max_le.2 ⟨hfirst, hmore⟩, ?_, rfl, hstops.2 hrest, hlegible⟩
    rw [Phrase.placed, List.append_assoc]

/-- **Rounds are read as rounds**, given that operands are read as operands.  The pieces ahead are
    those behind an operand, so that an operand has stopped there. -/
theorem rounds_reads {operand : Rule} (hoperand : Reads operand (.operand level) budget) :
    ∀ (n : Nat) (ahead : List Placed) (code : List Instruction) (rest : List Placed),
      ahead.length ≤ n → Stops (.operand level) ahead → Legible ahead →
      ((rounds finish level operand n ahead).Yields code rest ↔
        Begins (.rounds level) budget ahead code rest) := by
  intro n
  induction n with
  | zero =>
    intro ahead code rest hn hstop hlegible
    -- the bound is used up, and so are the pieces
    obtain rfl : ahead = [] := List.length_eq_zero_iff.1 (Nat.le_zero.1 hn)
    rw [rounds, yields_pure, begins_done hstop hlegible rfl]
  | succ n ih =>
    intro ahead code rest hn hstop hlegible
    rw [rounds]
    rcases hnext : operator? level ahead with _ | ⟨op, position, behind⟩
    · rw [yields_pure, begins_done hstop hlegible hnext]
    · obtain ⟨hlevel, rfl⟩ := operator?_eq_some.1 hnext
      have hbehind : behind.length ≤ n := Nat.le_of_succ_le_succ hn
      rw [begins_round hlevel]
      constructor
      · intro h
        obtain ⟨_, _, _, hpull, hpulled, rfl⟩ := yields_bind.1 h
        obtain ⟨rfl, rfl, _⟩ := yields_pull.1 hpull
        obtain ⟨reached, before, _, hright, hread, rfl⟩ := yields_bind.1 hpulled
        obtain ⟨_, _, after, hemit, hmore, rfl⟩ := yields_bind.1 hread
        cases yields_emit.1 hemit
        have hbegins := (hoperand _ _ _).1 hright
        obtain ⟨hstop, hlegible⟩ := hbegins.behind
        have hreached : reached.length ≤ n := Nat.le_trans hbegins.length_le hbehind
        exact ⟨reached, before, after, hbegins,
          (ih reached after rest hreached hstop hlegible).1 hmore, rfl⟩
      · rintro ⟨reached, before, after, hbegins, hmore, rfl⟩
        obtain ⟨hstop, hlegible⟩ := hbegins.behind
        have hreached : reached.length ≤ n := Nat.le_trans hbegins.length_le hbehind
        have hpull : (pull finish behind).Yields [] behind :=
          yields_pull.2 ⟨rfl, rfl, hbegins.legible⟩
        refine yields_bind.2 ⟨behind, [], _, hpull, ?_, rfl⟩
        refine yields_bind.2 ⟨reached, before, _, (hoperand _ _ _).2 hbegins, ?_, rfl⟩
        refine yields_bind.2 ⟨(), [.apply op position], after, yields_emit.2 rfl, ?_, rfl⟩
        exact (ih reached after rest hreached hstop hlegible).2 hmore

/-- A rule that reads operands gives one that reads chains of them. -/
theorem chain_reads {operand : Rule} (hoperand : Reads operand (.operand level) budget) :
    Reads (chain finish level operand) (.chain level) budget := by
  intro ahead code rest
  rw [begins_chain]
  constructor
  · intro h
    obtain ⟨reached, before, after, hfirst, hmore, rfl⟩ := yields_bind.1 h
    have hbegins := (hoperand _ _ _).1 hfirst
    obtain ⟨hstop, hlegible⟩ := hbegins.behind
    exact ⟨reached, before, after, hbegins,
      (rounds_reads hoperand _ _ _ _ (Nat.le_refl _) hstop hlegible).1 hmore, rfl⟩
  · rintro ⟨reached, before, after, hfirst, hmore, rfl⟩
    obtain ⟨hstop, hlegible⟩ := hfirst.behind
    exact yields_bind.2 ⟨reached, before, after, (hoperand _ _ _).2 hfirst,
      (rounds_reads hoperand _ _ _ _ (Nat.le_refl _) hstop hlegible).2 hmore, rfl⟩

/-- The operands of sums are the chains of products. -/
theorem term_reads {term : Rule} (h : Reads term (.chain .product) budget) :
    Reads term (.operand .sum) budget := by
  intro ahead code rest
  rw [h]
  constructor
  · rintro ⟨inner, hnesting, hahead, hcode, hrest⟩
    exact ⟨.term inner, hnesting, hahead, hcode, hrest⟩
  · rintro ⟨e, hnesting, hahead, hcode, hrest⟩
    cases e with
    | term inner => exact ⟨inner, hnesting, hahead, hcode, hrest⟩

/-- A rule that reads factors gives one that reads expressions. -/
theorem exprBy_reads {factor : Rule} (h : Reads factor (.operand .product) budget) :
    Reads (exprBy finish factor) (.chain .sum) budget :=
  chain_reads (term_reads (chain_reads h))

/-! ## Factors -/

/-- A literal is read as a factor whatever becomes of parentheses; all else that is read begins with
    one. -/
theorem yields_factorBy {parenthesized : Nat → Rule} {ahead rest : List Placed}
    {code : List Instruction} :
    (factorBy finish parenthesized ahead).Yields code rest ↔
      (∃ literal position, ahead = ⟨.token (.integer literal), position⟩ :: rest ∧
        code = [.push literal position] ∧ Legible rest) ∨
      ∃ position behind, ahead = ⟨.token .leftParen, position⟩ :: behind ∧
        (parenthesized position behind).Yields code rest := by
  constructor
  · intro h
    rw [factorBy.eq_def] at h
    split at h
    · next position behind => exact .inr ⟨position, behind, rfl, h⟩
    · next literal position behind =>
      obtain ⟨_, _, _, hemit, hpull, rfl⟩ := yields_bind.1 h
      obtain ⟨rfl, rfl, hlegible⟩ := yields_pull.1 hpull
      cases yields_emit.1 hemit
      exact .inl ⟨literal, position, rfl, rfl, hlegible⟩
    · exact absurd h not_yields_fail
  · rintro (⟨literal, position, rfl, rfl, hlegible⟩ | ⟨position, behind, rfl, h⟩)
    · exact yields_bind.2 ⟨(), [.push literal position], [], yields_emit.2 rfl,
        yields_pull.2 ⟨rfl, rfl, hlegible⟩, rfl⟩
    · exact h

/-- A parenthesis is read as what stands in it, up to the closing one. -/
theorem yields_group {inner : Rule} (hinner : Reads inner (.chain .sum) budget)
    {behind rest : List Placed} {code : List Instruction} :
    (group finish inner behind).Yields code rest ↔
      ∃ (e : Expression) (closing : Nat), e.nesting ≤ budget ∧ code = e.code ∧ Legible rest ∧
        behind = e.placed ++ ⟨.token .rightParen, closing⟩ :: rest := by
  constructor
  · intro h
    obtain ⟨_, _, _, hpull, hpulled, rfl⟩ := yields_bind.1 h
    obtain ⟨rfl, rfl, _⟩ := yields_pull.1 hpull
    obtain ⟨_, _, _, he, hclose, rfl⟩ := yields_bind.1 hpulled
    obtain ⟨e, hnesting, rfl, rfl, _, _⟩ := (hinner _ _ _).1 he
    obtain ⟨rfl, hlegible, closing, rfl⟩ := yields_close.1 hclose
    exact ⟨e, closing, hnesting, List.append_nil _, hlegible, rfl⟩
  · rintro ⟨e, closing, hnesting, rfl, hlegible, rfl⟩
    have hclosing := legible_token .rightParen closing rest
    refine yields_bind.2 ⟨_, [], e.code, yields_pull.2 ⟨rfl, rfl,
      legible_placed_append e hclosing⟩, ?_, rfl⟩
    refine yields_bind.2 ⟨⟨.token .rightParen, closing⟩ :: rest, e.code, [], (hinner _ _ _).2
      ⟨e, hnesting, rfl, rfl, stops_of_not_operator (by simp), hclosing⟩, ?_,
      (List.append_nil _).symm⟩
    exact yields_close.2 ⟨rfl, hlegible, closing, rfl⟩

/-- **Factors are read as factors**, with parentheses nested within the budget. -/
theorem factorWithin_reads (limit finish : Nat) :
    ∀ budget, Reads (factorWithin limit finish budget) (.operand .product) budget := by
  intro budget
  induction budget with
  | zero =>
    intro ahead code rest
    rw [factorWithin, yields_factorBy]
    constructor
    · rintro (⟨literal, position, rfl, rfl, hlegible⟩ | ⟨_, _, _, h⟩)
      · exact ⟨.integer literal position, Nat.le_refl _, rfl, rfl, fun _ _ _ _ => id, hlegible⟩
      · exact absurd h not_yields_fail
    · rintro ⟨e, hnesting, rfl, rfl, _, hlegible⟩
      cases e with
      | integer literal position => exact .inl ⟨literal, position, rfl, rfl, hlegible⟩
      | group opening inner closing => cases hnesting
  | succ budget ih =>
    intro ahead code rest
    rw [factorWithin, yields_factorBy]
    constructor
    · rintro (⟨literal, position, rfl, rfl, hlegible⟩ | ⟨opening, behind, rfl, h⟩)
      · exact ⟨.integer literal position, Nat.zero_le _, rfl, rfl, fun _ _ _ _ => id, hlegible⟩
      · obtain ⟨e, closing, hnesting, rfl, hlegible, rfl⟩ := (yields_group (exprBy_reads ih)).1 h
        refine ⟨.group opening e closing, Nat.succ_le_succ hnesting, ?_, rfl, fun _ _ _ _ => id,
          hlegible⟩
        simp only [Phrase.placed, List.cons_append, List.append_assoc, List.nil_append]
    · rintro ⟨e, hnesting, rfl, rfl, _, hlegible⟩
      cases e with
      | integer literal position => exact .inl ⟨literal, position, rfl, rfl, hlegible⟩
      | group opening inner closing =>
        refine .inr ⟨opening, _, rfl, (yields_group (exprBy_reads ih)).2 ⟨inner, closing,
          Nat.le_of_succ_le_succ hnesting, rfl, hlegible, ?_⟩⟩
        exact List.append_assoc _ _ _

/-- Expressions are read as expressions. -/
theorem expr_reads (limit finish budget : Nat) :
    Reads (exprBy finish (factorWithin limit finish budget)) (.chain .sum) budget :=
  exprBy_reads (factorWithin_reads limit finish budget)

end Calculator.Outline
