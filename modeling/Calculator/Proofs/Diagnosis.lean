/-
  Faults of a text and where they come from.

  Problem: a rule may fail deep inside other rules.  Show that wherever it does, the place and the
  fault are what the automaton has to say about the text from its start on.

  1. **Verdict** — `Expectation.Refuses`: one way of refusing for each sort of fault.  Which fault
     it is depends on what is wanted and on the piece that comes instead, not on how the tokens
     before it are grouped.

  2. **The crux (`Breaks`)** — a rule that fails has been through pieces that the automaton goes
     through, and stands at one that it refuses.  A rule that was entered from another one adds
     what lies before it (`Breaks.after`), so that the place of the fault, as seen from the start of
     the text, comes out of the rules one by one.

  3. **Induction** — chains on their rounds, factors on how many parentheses may still be opened;
     together with those that are open, these come to the limit.
-/
import Calculator.Proofs.Expectation
import Calculator.Proofs.Recognition

namespace Calculator

/-! ## Verdicts -/

namespace Expectation

/-- The kind that is said to be wanted. -/
def wanted : Expectation → TokenKind
  | .operand _ => .integer
  | .operator 0 => .endOfInput
  | .operator (_ + 1) => .rightParen

/-- The pieces ahead cannot be gone on with, and this is the fault of the first of them, or of the
    end if there are none. -/
inductive Refuses (settings : Settings) (finish : Nat) : Expectation → List Placed → Fault → Prop
  | stray (s : Expectation) (c : Char) (position : Nat) (behind : List Placed) :
      Refuses settings finish s (⟨.stray c, position⟩ :: behind) ⟨.strayCharacter c, position⟩
  | tooDeep (opened position : Nat) (behind : List Placed) (hfull : ¬ opened < settings.maxDepth) :
      Refuses settings finish (.operand opened) (⟨.token .leftParen, position⟩ :: behind)
        ⟨.nestedTooDeep settings.maxDepth, position⟩
  /-- Behind a complete expression this is a fault only if nothing may be left over. -/
  | misplaced (s : Expectation) (token : Token) (position : Nat) (behind : List Placed)
      (hnext : next settings.maxDepth s (.token token) = none)
      (hend : s = .operator 0 → settings.trailing = .rejected) :
      Refuses settings finish s (⟨.token token, position⟩ :: behind)
        ⟨.unexpected s.wanted token.kind, position⟩
  | ended (s : Expectation) (hmore : s ≠ .operator 0) :
      Refuses settings finish s [] ⟨.unexpected s.wanted .endOfInput, finish⟩

variable {settings : Settings} {finish : Nat} {s : Expectation} {ahead : List Placed}
  {fault : Fault}

/-- What is refused does not lead to the end of an expression. -/
theorem Refuses.after_ne (h : Refuses settings finish s ahead fault) :
    after settings.maxDepth s (ahead.map Placed.reading) ≠ some (.operator 0) := by
  intro hafter
  cases h with
  | stray _ c position behind =>
    rw [List.map_cons, after_cons] at hafter
    cases s <;> cases hafter
  | tooDeep opened position behind hfull =>
    have hnext : next settings.maxDepth (.operand opened) (.token .leftParen) = none :=
      if_neg hfull
    rw [List.map_cons, after_cons, hnext] at hafter
    cases hafter
  | misplaced _ token position behind hnext hend =>
    rw [List.map_cons, after_cons, hnext] at hafter
    cases hafter
  | ended _ hmore =>
    cases hafter
    exact hmore rfl

/-- A misplaced piece is refused if the automaton does not go on with it. -/
theorem refuses_misplaced
    (hnext : ∀ token position behind, ahead = ⟨.token token, position⟩ :: behind →
      next settings.maxDepth s (.token token) = none)
    (hend : s = .operator 0 → settings.trailing = .rejected ∧ ahead ≠ []) :
    Refuses settings finish s ahead (Outline.misplaced finish s.wanted ahead) := by
  rcases ahead with _ | ⟨⟨token | c, position⟩, behind⟩
  · exact .ended s fun heq => (hend heq).2 rfl
  · exact .misplaced s token position behind (hnext token position behind rfl)
      fun heq => (hend heq).1
  · exact .stray s c position behind

end Expectation

namespace Outline

open Expectation

/-- Going through the pieces ahead breaks off: the automaton goes through the first of them and
    refuses what follows. -/
def Breaks (settings : Settings) (finish : Nat) (s : Expectation) (ahead : List Placed)
    (fault : Fault) : Prop :=
  ∃ before rest reached, ahead = before ++ rest ∧
    Expectation.after settings.maxDepth s (before.map Placed.reading) = some reached ∧
    Refuses settings finish reached rest fault

/-- If the rule fails, then where the automaton breaks off. -/
def Diagnoses (settings : Settings) (finish : Nat) (rule : Rule) (s : Expectation) : Prop :=
  ∀ ahead fault, (rule ahead).Fails fault → Breaks settings finish s ahead fault

variable {settings : Settings} {finish budget opened : Nat} {level : Level} {s s' : Expectation}
  {ahead behind : List Placed} {fault : Fault}

/-- What is refused at once breaks off at once. -/
theorem Breaks.of_refuses (h : Refuses settings finish s ahead fault) :
    Breaks settings finish s ahead fault :=
  ⟨[], ahead, s, rfl, rfl, h⟩

/-- What is gone through first is gone through in all. -/
theorem Breaks.after {before : List Placed} (h : Breaks settings finish s' ahead fault)
    (hbefore : Expectation.after settings.maxDepth s (before.map Placed.reading) = some s') :
    Breaks settings finish s (before ++ ahead) fault := by
  obtain ⟨more, rest, reached, rfl, hafter, hrefuses⟩ := h
  refine ⟨before ++ more, rest, reached, (List.append_assoc _ _ _).symm, ?_, hrefuses⟩
  rw [List.map_append, after_append_of_some hbefore, hafter]

/-- A token that is gone through is gone through in all. -/
theorem Breaks.after_token {token : Token} {position : Nat}
    (h : Breaks settings finish s' behind fault)
    (hnext : next settings.maxDepth s (.token token) = some s') :
    Breaks settings finish s (⟨.token token, position⟩ :: behind) fault := by
  let before : List Placed := [⟨.token token, position⟩]
  have hbefore : Expectation.after settings.maxDepth s (before.map Placed.reading) = some s' := by
    show Expectation.after settings.maxDepth s [.token token] = some s'
    rw [after_cons, hnext]
    rfl
  exact h.after hbefore

/-- If the lookahead cannot be had, that is because of a stray. -/
theorem breaks_of_pull (h : (pull finish ahead).Fails fault) :
    Breaks settings finish s ahead fault := by
  rw [pull.eq_def] at h
  split at h
  · cases h
  · cases h
  · next c position behind =>
    obtain rfl := fails_fail.1 h
    exact .of_refuses (.stray s c position behind)

/-! ## Chains -/

/-- **Rounds break off where their operands do**, or at a stray behind an operator. -/
theorem rounds_diagnoses {operand : Rule} (hreads : Reads operand (.operand level) budget)
    (hoperand : Diagnoses settings finish operand (.operand opened))
    (hbudget : opened + budget ≤ settings.maxDepth) :
    ∀ n, Diagnoses settings finish (rounds finish level operand n) (.operator opened) := by
  intro n
  induction n with
  | zero =>
    intro ahead fault h
    exact absurd h not_fails_pure
  | succ n ih =>
    intro ahead fault h
    rw [rounds] at h
    rcases hnext : operator? level ahead with _ | ⟨op, position, behind⟩
    · rw [hnext] at h
      exact absurd h not_fails_pure
    · rw [hnext] at h
      obtain ⟨_, rfl⟩ := operator?_eq_some.1 hnext
      suffices hbehind : Breaks settings finish (.operand opened) behind fault from
        hbehind.after_token rfl
      -- the three steps of a round: the lookahead, the right operand, and what follows it
      rcases fails_bind.1 h with hpull | ⟨right, _, hpull, hpulled⟩
      · exact breaks_of_pull hpull
      obtain ⟨_, rfl, _⟩ := yields_pull.1 hpull
      rcases fails_bind.1 hpulled with hright | ⟨rest, _, hright, hread⟩
      · exact hoperand _ _ hright
      obtain ⟨e, hnesting, rfl, _, _, _⟩ := (hreads _ _ _).1 hright
      rcases fails_bind.1 hread with hemit | ⟨_, _, _, hmore⟩
      · exact absurd hemit not_fails_emit
      · exact (ih _ _ hmore).after (after_placed e opened (by omega))

/-- Chains break off in their first operand or in their rounds. -/
theorem chain_diagnoses {operand : Rule} (hreads : Reads operand (.operand level) budget)
    (hoperand : Diagnoses settings finish operand (.operand opened))
    (hbudget : opened + budget ≤ settings.maxDepth) :
    Diagnoses settings finish (chain finish level operand) (.operand opened) := by
  intro ahead fault h
  rcases fails_bind.1 h with hfirst | ⟨rest, _, hfirst, hmore⟩
  · exact hoperand _ _ hfirst
  · obtain ⟨e, hnesting, rfl, _, _, _⟩ := (hreads _ _ _).1 hfirst
    have hrounds := rounds_diagnoses hreads hoperand hbudget _ _ _ hmore
    exact hrounds.after (after_placed e opened (by omega))

/-- Expressions break off where their factors do, or at a stray behind an operator. -/
theorem exprBy_diagnoses {factor : Rule} (hreads : Reads factor (.operand .product) budget)
    (hfactor : Diagnoses settings finish factor (.operand opened))
    (hbudget : opened + budget ≤ settings.maxDepth) :
    Diagnoses settings finish (exprBy finish factor) (.operand opened) := by
  have hterm := chain_diagnoses hreads hfactor hbudget
  exact chain_diagnoses (term_reads (chain_reads hreads)) hterm hbudget

/-! ## Factors -/

/-- Behind an expression the automaton goes on with an operator or a parenthesis that is missing,
    and with nothing else. -/
theorem next_eq_none_of_stops {token : Token} {position : Nat} (limit : Nat)
    (hstop : Stops (.chain .sum) (⟨.token token, position⟩ :: behind))
    (hclose : token = .rightParen → opened = 0) :
    next limit (.operator opened) (.token token) = none := by
  rcases hnext : next limit (.operator opened) (.token token) with _ | s
  · rfl
  rcases next_cases hnext with ⟨_, _, h, _⟩ | ⟨_, h, _⟩ | ⟨_, op, _, h, _⟩ | ⟨_, hmissing, h, _⟩
  · cases h
  · cases h
  · cases h
    exact absurd trivial (hstop op position behind rfl)
  · cases h
    cases hmissing
    cases hclose rfl

/-- What closes a parenthesis is missing where neither it nor an operator stands. -/
theorem close_breaks (hstop : Stops (.chain .sum) ahead) (h : (close finish ahead).Fails fault) :
    Breaks settings finish (.operator (opened + 1)) ahead fault := by
  rw [close.eq_def] at h
  split at h
  · exact (breaks_of_pull h).after_token rfl
  · next hother =>
    obtain rfl := fails_fail.1 h
    refine .of_refuses (refuses_misplaced (fun token position behind hahead => ?_)
      fun heq => by cases heq)
    subst hahead
    refine next_eq_none_of_stops settings.maxDepth hstop ?_
    rintro rfl
    exact absurd rfl (hother position behind)

/-- An expression in parentheses breaks off in the expression, or where it should be closed. -/
theorem group_diagnoses {inner : Rule} (hreads : Reads inner (.chain .sum) budget)
    (hinner : Diagnoses settings finish inner (.operand (opened + 1)))
    (hbudget : opened + 1 + budget ≤ settings.maxDepth) :
    Diagnoses settings finish (group finish inner) (.operand (opened + 1)) := by
  intro behind fault h
  rcases fails_bind.1 h with hpull | ⟨ahead, _, hpull, hpulled⟩
  · exact breaks_of_pull hpull
  obtain ⟨_, rfl, _⟩ := yields_pull.1 hpull
  rcases fails_bind.1 hpulled with he | ⟨rest, _, he, hclose⟩
  · exact hinner _ _ he
  obtain ⟨e, hnesting, rfl, _, hstop, _⟩ := (hreads _ _ _).1 he
  exact (close_breaks hstop hclose).after (after_placed e (opened + 1) (by omega))

/-- Factors break off where none begins, at a stray behind a literal, or in a parenthesis. -/
theorem factorBy_diagnoses {parenthesized : Nat → Rule}
    (hparenthesized : ∀ position behind fault, (parenthesized position behind).Fails fault →
      Breaks settings finish (.operand opened) (⟨.token .leftParen, position⟩ :: behind) fault) :
    Diagnoses settings finish (factorBy finish parenthesized) (.operand opened) := by
  intro ahead fault h
  rw [factorBy.eq_def] at h
  split at h
  · next position behind => exact hparenthesized position behind fault h
  · next literal position behind =>
    rcases fails_bind.1 h with hemit | ⟨_, _, _, hpull⟩
    · exact absurd hemit not_fails_emit
    · exact (breaks_of_pull hpull).after_token rfl
  · next hparen hinteger =>
    obtain rfl := fails_fail.1 h
    refine .of_refuses (refuses_misplaced (fun token position behind hahead => ?_)
      fun heq => by cases heq)
    subst hahead
    rcases token with literal | op | _ | _ | _
    case integer => exact absurd rfl (hinteger literal position behind)
    case leftParen => exact absurd rfl (hparen position behind)
    all_goals rfl

/-- **Factors break off where the automaton does**, as long as the parentheses that are open and
    those that may still be opened come to the limit. -/
theorem factorWithin_diagnoses (settings : Settings) (finish : Nat) :
    ∀ budget opened, opened + budget = settings.maxDepth →
      Diagnoses settings finish (factorWithin settings.maxDepth finish budget)
        (.operand opened) := by
  intro budget
  induction budget with
  | zero =>
    intro opened hbudget
    refine factorBy_diagnoses fun position behind fault h => ?_
    obtain rfl := fails_fail.1 h
    have hfull : ¬ opened < settings.maxDepth := by omega
    exact .of_refuses (.tooDeep opened position behind hfull)
  | succ budget ih =>
    intro opened hbudget
    refine factorBy_diagnoses fun position behind fault h => ?_
    have hreads := factorWithin_reads settings.maxDepth finish budget
    have hexpr := exprBy_diagnoses hreads (ih (opened + 1) (by omega)) (by omega)
    have hgroup := group_diagnoses (exprBy_reads hreads) hexpr (by omega)
    have hopen : opened < settings.maxDepth := by omega
    exact (hgroup _ _ h).after_token (if_pos hopen)

/-- Expressions break off where the automaton does. -/
theorem expr_diagnoses (settings : Settings) (finish : Nat) :
    Diagnoses settings finish
      (exprBy finish (factorWithin settings.maxDepth finish settings.maxDepth)) (.operand 0) := by
  have hreads := factorWithin_reads settings.maxDepth finish settings.maxDepth
  have hfactor := factorWithin_diagnoses settings finish settings.maxDepth 0 (Nat.zero_add _)
  exact exprBy_diagnoses hreads hfactor (by omega)

/-! ## Texts -/

/-- What is left over is a fault if nothing may be. -/
theorem fails_trailing {leftOver : Trailing} (h : (trailing finish leftOver ahead).Fails fault) :
    leftOver = .rejected ∧ ahead ≠ [] ∧ fault = misplaced finish .endOfInput ahead := by
  rw [trailing.eq_def] at h
  split at h
  · exact absurd h not_fails_pure
  · cases h
  · next hne => exact ⟨rfl, hne, fails_fail.1 h⟩

/-- **A text breaks off where the automaton does.** -/
theorem ofText_breaks {text : String} (h : (ofText settings text).Fails fault) :
    Breaks settings (Text.byteLength text.toList) (.operand 0) (Placed.ofText text) fault := by
  rcases fails_bind.1 h with hpull | ⟨ahead, _, hpull, hrules⟩
  · exact breaks_of_pull hpull
  obtain ⟨_, rfl, _⟩ := yields_pull.1 hpull
  rcases fails_bind.1 hrules with hexpr | ⟨rest, _, hexpr, htrailing⟩
  · exact expr_diagnoses settings _ _ _ hexpr
  -- a complete expression has been read, and something is left over
  obtain ⟨e, hnesting, hahead, _, hstop, _⟩ := (expr_reads _ _ _ _ _ _).1 hexpr
  obtain ⟨hrejected, hne, rfl⟩ := fails_trailing htrailing
  have hrest : Breaks settings (Text.byteLength text.toList) (.operator 0) rest
      (misplaced (Text.byteLength text.toList) .endOfInput rest) := by
    refine .of_refuses (refuses_misplaced (fun token position behind hrest => ?_)
      fun _ => ⟨hrejected, hne⟩)
    subst hrest
    exact next_eq_none_of_stops settings.maxDepth hstop fun _ => rfl
  rw [hahead]
  exact hrest.after (after_placed e 0 (by omega))

end Outline

end Calculator
