/-
  What the limit on nesting decides.

  Problem: compare evaluations of one text under different limits.  Show that a limit either plays
  no part or makes itself felt as the fault of a parenthesis that is nested too deep, and say from
  which limit on it plays none, and where the fault lies below.

  1. **Lock step** — `Outline.Narrows`: the outline under a limit is the one under a higher limit,
     or it breaks off at a parenthesis that is too deep and has written the beginning of the same
     code.  The relation goes through sequences (`Narrows.bind`), and so through all rules; the two
     differ first where a factor has used up the parentheses that it may open.

  2. **Outcomes (`evaluateWith_of_le`)** — an instruction that fails before the outline breaks off
     fails under both limits.  So a limit that does not show in the outcome can be raised.

  3. **Place (`isFirstUnder_of_nestedTooDeep`)** — the automaton of the grammar has come to the
     parenthesis with as many open as the limit allows, and with fewer to every one before it.

  4. **Result (`exists_nesting_threshold`)** — the least limit that does not show (`Suffices`) is
     the threshold.  No text needs a limit above the number of its opening parentheses, because
     more than these cannot be open.
-/
import Calculator.Proofs.FirstFault
import Calculator.Proofs.Parentheses
import Mathlib.Data.Nat.Find

namespace Calculator

/-! ## Lock step -/

namespace Outline

variable {α β : Type} {limit : Nat}

/-- The first outline is the second, or a parenthesis beyond the limit cuts it short. -/
def Narrows (limit : Nat) (o o' : Outline α) : Prop :=
  o = o' ∨ (∃ position, o.ending = .error ⟨.nestedTooDeep limit, position⟩) ∧ o.code <+: o'.code

theorem Narrows.refl (o : Outline α) : Narrows limit o o := .inl rfl

/-- A sequence begins with the code of its first member. -/
theorem code_prefix_bind (o : Outline α) (next : α → Outline β) : o.code <+: (o >>= next).code := by
  rcases hending : o.ending with fault | a
  · refine ⟨[], ?_⟩
    rw [bind_of_error hending, List.append_nil]
  · rw [bind_of_ok hending]
    exact List.prefix_append _ _

/-- **Sequences go in lock step**, if their members do. -/
theorem Narrows.bind {o o' : Outline α} {next next' : α → Outline β} (h : Narrows limit o o')
    (hnext : ∀ a, Narrows limit (next a) (next' a)) :
    Narrows limit (o >>= next) (o' >>= next') := by
  rcases h with rfl | ⟨⟨position, hending⟩, hcode⟩
  · rcases hending : o.ending with fault | a
    · rw [bind_of_error hending, bind_of_error hending]
      exact .refl _
    · rw [bind_of_ok hending, bind_of_ok hending]
      rcases hnext a with heq | ⟨hcut, hcode⟩
      · rw [heq]
        exact .refl _
      · exact .inr ⟨hcut, (List.prefix_append_right_inj o.code).2 hcode⟩
  · -- the first member is cut short, and the other sequence may go on
    rw [bind_of_error hending]
    exact .inr ⟨⟨position, rfl⟩, hcode.trans (code_prefix_bind o' next')⟩

/-- Rounds go in lock step, if their operands do. -/
theorem rounds_narrows {finish : Nat} {level : Level} {operand operand' : Rule}
    (h : ∀ ahead, Narrows limit (operand ahead) (operand' ahead)) :
    ∀ n ahead, Narrows limit (rounds finish level operand n ahead)
      (rounds finish level operand' n ahead) := by
  intro n
  induction n with
  | zero => exact fun _ => .refl _
  | succ n ih =>
    intro ahead
    rw [rounds, rounds]
    rcases operator? level ahead with _ | ⟨op, position, behind⟩
    · exact .refl _
    · refine .bind (.refl _) fun right => ?_
      refine .bind (h right) fun rest => ?_
      exact .bind (.refl _) fun _ => ih rest

/-- So do chains. -/
theorem chain_narrows {finish : Nat} {level : Level} {operand operand' : Rule}
    (h : ∀ ahead, Narrows limit (operand ahead) (operand' ahead)) (ahead : List Placed) :
    Narrows limit (chain finish level operand ahead) (chain finish level operand' ahead) :=
  .bind (h ahead) fun rest => rounds_narrows h rest.length rest

/-- So do expressions, if their factors do. -/
theorem exprBy_narrows {finish : Nat} {factor factor' : Rule}
    (h : ∀ ahead, Narrows limit (factor ahead) (factor' ahead)) (ahead : List Placed) :
    Narrows limit (exprBy finish factor ahead) (exprBy finish factor' ahead) :=
  chain_narrows (chain_narrows h) ahead

/-- Factors go in lock step, if what begins with a parenthesis does. -/
theorem factorBy_narrows {finish : Nat} {parenthesized parenthesized' : Nat → Rule}
    (h : ∀ position behind,
      Narrows limit (parenthesized position behind) (parenthesized' position behind))
    (ahead : List Placed) :
    Narrows limit (factorBy finish parenthesized ahead) (factorBy finish parenthesized' ahead) := by
  rw [factorBy.eq_def, factorBy.eq_def]
  split
  · exact h _ _
  · exact .refl _
  · exact .refl _

/-- **Factors go in lock step** as long as parentheses may be opened.  The induction is on how many
    may be opened under the lower limit: when these are used up, the next one is too deep. -/
theorem factorWithin_narrows (limit limit' finish : Nat) :
    ∀ budget budget', budget ≤ budget' → ∀ ahead,
      Narrows limit (factorWithin limit finish budget ahead)
        (factorWithin limit' finish budget' ahead) := by
  intro budget
  induction budget with
  | zero =>
    intro budget' _ ahead
    have hcut : ∀ (o : Outline (List Placed)) (position : Nat),
        Narrows limit (fail ⟨.nestedTooDeep limit, position⟩) o :=
      fun o position => .inr ⟨⟨position, rfl⟩, List.nil_prefix⟩
    cases budget' with
    | zero => exact factorBy_narrows (fun position _ => hcut _ position) ahead
    | succ budget' => exact factorBy_narrows (fun position _ => hcut _ position) ahead
  | succ budget ih =>
    intro budget' hle ahead
    obtain ⟨budget', rfl⟩ := Nat.exists_eq_succ_of_ne_zero (show budget' ≠ 0 by omega)
    have hfactor := ih budget' (show budget ≤ budget' by omega)
    refine factorBy_narrows (fun position behind => ?_) ahead
    refine .bind (.refl _) fun inside => ?_
    exact .bind (exprBy_narrows hfactor inside) fun _ => .refl _

/-- Texts go in lock step. -/
theorem ofText_narrows {limit' : Nat} (hle : limit ≤ limit') (leftOver : Trailing)
    (text : String) :
    Narrows limit (ofText ⟨limit, leftOver⟩ text) (ofText ⟨limit', leftOver⟩ text) := by
  refine .bind (.refl _) fun ahead => ?_
  refine .bind ?_ fun _ => .refl _
  exact exprBy_narrows (factorWithin_narrows limit limit' _ limit limit' hle) ahead

end Outline

/-! ## Outcomes -/

/-- **A limit that does not show can be raised.** -/
theorem evaluateWith_of_le {limit limit' : Nat} (hle : limit ≤ limit') (leftOver : Trailing)
    (text : String) :
    evaluateWith ⟨limit', leftOver⟩ text = evaluateWith ⟨limit, leftOver⟩ text ∨
      ∃ position, evaluateWith ⟨limit, leftOver⟩ text =
        .error ⟨.nestedTooDeep limit, position⟩ := by
  have houtcome := outcome_ofText ⟨limit, leftOver⟩ text
  have houtcome' := outcome_ofText ⟨limit', leftOver⟩ text
  rcases Outline.ofText_narrows hle leftOver text with heq | ⟨⟨position, hending⟩, more, hmore⟩
  · left
    rw [heq] at houtcome
    exact Option.some.inj (houtcome'.symm.trans houtcome)
  · rcases hcode : execute (Outline.ofText ⟨limit, leftOver⟩ text).code [] with (fault | _) | stack
    · -- an instruction fails before the outline breaks off
      left
      have hcode' : execute (Outline.ofText ⟨limit', leftOver⟩ text).code [] =
          .error (.fault fault) := by
        rw [← hmore, execute_append, hcode]
        rfl
      rw [Outline.outcome_eq_error.2 (.inl hcode)] at houtcome
      rw [Outline.outcome_eq_error.2 (.inl hcode')] at houtcome'
      exact Option.some.inj (houtcome'.symm.trans houtcome)
    · rw [Outline.outcome, hcode] at houtcome
      cases houtcome
    · right
      refine ⟨position, ?_⟩
      rw [Outline.outcome_eq_error.2 (.inr ⟨⟨stack, hcode⟩, hending⟩)] at houtcome
      exact (Option.some.inj houtcome).symm

/-! ## Places -/

/-- At the place stands the first opening parenthesis of the text that has exactly so many unclosed
    ones before it. -/
def IsFirstUnder (text : String) (depth position : Nat) : Prop :=
  ∃ before behind, Placed.ofText text = before ++ ⟨.token .leftParen, position⟩ :: behind ∧
    unclosed before = depth ∧
    ∀ front position' back, before = front ++ ⟨.token .leftParen, position'⟩ :: back →
      unclosed front ≠ depth

/-- **A parenthesis that is too deep is the first one with as many open as the limit allows.** -/
theorem isFirstUnder_of_nestedTooDeep {settings : Settings} {text : String} {limit position : Nat}
    (h : evaluateWith settings text = .error ⟨.nestedTooDeep limit, position⟩) :
    limit = settings.maxDepth ∧ IsFirstUnder text settings.maxDepth position := by
  have hsyntax : ¬ (Cause.nestedTooDeep limit).IsArithmetic := by simp [Cause.IsArithmetic]
  obtain ⟨before, rest, reached, hsplit, hafter, hrefuses⟩ :=
    Outline.ofText_breaks (fails_of_evaluateWith h hsyntax)
  cases hrefuses with
  | tooDeep opened position behind hfull =>
    have hcount : unclosed before = opened := Expectation.openedBehind_of_after hafter
    have hopened : opened ≤ settings.maxDepth :=
      Expectation.opened_le_of_after hafter (Nat.zero_le _)
    refine ⟨rfl, before, behind, hsplit, by omega, ?_⟩
    rintro front position' back rfl
    -- the automaton has opened the earlier one, so that the limit was not reached there
    rw [List.map_append, List.map_cons, Expectation.after_append] at hafter
    obtain ⟨s, hfront, hback⟩ := Option.bind_eq_some_iff.1 hafter
    rw [Expectation.after_cons] at hback
    obtain ⟨s', hnext, _⟩ := Option.bind_eq_some_iff.1 hback
    have hcount' : unclosed front = s.opened := Expectation.openedBehind_of_after hfront
    rcases Expectation.next_cases hnext with ⟨_, _, _, h, _⟩ | ⟨opened', rfl, _, hlt, _⟩ |
      ⟨_, _, _, h, _⟩ | ⟨_, _, h, _⟩
    · cases h
    · rw [hcount']
      exact Nat.ne_of_lt hlt
    · cases h
    · cases h

/-- Where a parenthesis is too deep, the text has more opening parentheses than the limit. -/
theorem IsFirstUnder.lt_count {text : String} {depth position : Nat}
    (h : IsFirstUnder text depth position) : depth < text.toList.count '(' := by
  obtain ⟨before, behind, hsplit, rfl, _⟩ := h
  exact unclosed_lt_count hsplit

/-! ## The threshold -/

/-- The limit is high enough for the text: no parenthesis is found to be too deep. -/
def Suffices (limit : Nat) (leftOver : Trailing) (text : String) : Prop :=
  ∀ limit' position,
    evaluateWith ⟨limit, leftOver⟩ text ≠ .error ⟨.nestedTooDeep limit', position⟩

/-- The number of opening parentheses is high enough. -/
theorem suffices_count (leftOver : Trailing) (text : String) :
    Suffices (text.toList.count '(') leftOver text := by
  intro limit position h
  have hlt := (isFirstUnder_of_nestedTooDeep h).2.lt_count
  exact Nat.lt_irrefl _ hlt

/-- What a limit that is not high enough comes to. -/
theorem isFirstUnder_of_not_suffices {limit : Nat} {leftOver : Trailing} {text : String}
    (h : ¬ Suffices limit leftOver text) :
    ∃ position, evaluateWith ⟨limit, leftOver⟩ text = .error ⟨.nestedTooDeep limit, position⟩ ∧
      IsFirstUnder text limit position := by
  rw [Suffices, not_forall] at h
  obtain ⟨limit', h⟩ := h
  rw [not_forall] at h
  obtain ⟨position, h⟩ := h
  have hdeep := not_not.1 h
  obtain ⟨rfl, hfirst⟩ := isFirstUnder_of_nestedTooDeep hdeep
  exact ⟨position, hdeep, hfirst⟩

/-- **The limit on nesting decides between one outcome and a parenthesis that is too deep.**  There
    is a threshold, no higher than the number of opening parentheses of the text.  From there on the
    outcome is always the same, value or fault, and is not about nesting.  Below it the first
    parenthesis with as many unclosed before it as the limit allows is at fault; groups that have
    been closed do not count.  So an outcome that is not about nesting stays when the limit is
    raised. -/
theorem exists_nesting_threshold (leftOver : Trailing) (text : String) :
    (∃ threshold outcome, threshold ≤ text.toList.count '(' ∧
      (∀ limit, threshold ≤ limit → evaluateWith ⟨limit, leftOver⟩ text = outcome) ∧
      (∀ limit position, outcome ≠ .error ⟨.nestedTooDeep limit, position⟩) ∧
      ∀ limit, limit < threshold → ∃ position,
        evaluateWith ⟨limit, leftOver⟩ text = .error ⟨.nestedTooDeep limit, position⟩ ∧
          IsFirstUnder text limit position) ∧
    ∀ limit limit', limit ≤ limit' →
      evaluateWith ⟨limit', leftOver⟩ text = evaluateWith ⟨limit, leftOver⟩ text ∨
        ∃ position, evaluateWith ⟨limit, leftOver⟩ text =
          .error ⟨.nestedTooDeep limit, position⟩ := by
  classical
  have hcount := suffices_count leftOver text
  have hsome : ∃ limit, Suffices limit leftOver text := ⟨_, hcount⟩
  -- the least limit that is high enough
  have hleast := Nat.find_spec hsome
  refine ⟨⟨Nat.find hsome, evaluateWith ⟨Nat.find hsome, leftOver⟩ text,
    Nat.find_min' hsome hcount, ?_, hleast, ?_⟩, ?_⟩
  · intro limit hle
    rcases evaluateWith_of_le hle leftOver text with heq | ⟨position, h⟩
    · exact heq
    · exact absurd h (hleast _ _)
  · intro limit hlt
    exact isFirstUnder_of_not_suffices (Nat.find_min hsome hlt)
  · intro limit limit' hle
    exact evaluateWith_of_le hle leftOver text

-- the first group is closed, so that the second begins with none open
example : evaluateWith ⟨1, .rejected⟩ "(1) + (2)" = .ok (.ofNat 3) := by decide +kernel
example : evaluateWith ⟨1, .rejected⟩ "(1) + ((2))" = .error ⟨.nestedTooDeep 1, 7⟩ := by
  decide +kernel

end Calculator
