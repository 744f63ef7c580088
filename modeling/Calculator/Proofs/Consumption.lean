/-
  What a rule consumes.

  Problem: the rules of the grammar call each other wherever the parser stands, and they may be
  asked for from outside at any time.  Say which tokens a rule consumes that comes to a value,
  whatever has been consumed before and however many parentheses are open.

  1. **Specification** — `Parser.Consumed`: from the old lookahead up to the new one stands a
     phrase, with nothing before it, nothing behind it and no stray in it; the cursor has taken a
     step for each of its tokens; and the new lookahead does not go on with it.

  2. **Tokens and steps** — the lookahead has been handed out before, so the steps hand out what
     follows it, up to the new lookahead (`Parser.Ready.front_steps`).  The end is handed out as
     well if the phrase goes up to it.

  3. **The crux (`Parser.Ready.exists_consumed`)** — a rule that comes to a value has done as its
     outline does, and an outline that ends well has read a phrase (`Parser.Ready.exists_phrase`).
     How many steps it has taken is not told by the outline, but by the tokens that remain: each
     step uses up one of them, and those that are used up are those of the phrase.

  4. **Result (`Parser.rules_consume_their_phrases`)** — for factors, terms and expressions, at
     every moment of every call.
-/
import Calculator.Proofs.Bookkeeping

namespace Calculator

variable {settings : Settings} {finish : Nat} {text : String}

/-! ## Phrases -/

namespace Phrase

/-- A factor is not empty. -/
theorem placed_factor_ne_nil (e : Phrase (.operand .product)) : e.placed ≠ [] := by
  cases e with
  | integer literal position => exact List.cons_ne_nil _ _
  | group opening inner closing => exact List.cons_ne_nil _ _

/-- Nor is a chain, if its operands are not. -/
theorem placed_chain_ne_nil {level : Level}
    (hoperand : ∀ e : Phrase (.operand level), e.placed ≠ []) (e : Phrase (.chain level)) :
    e.placed ≠ [] := by
  cases e with
  | chain first more => exact List.append_ne_nil_of_left_ne_nil (hoperand first) _

/-- A term is not empty. -/
theorem placed_term_ne_nil (e : Phrase (.chain .product)) : e.placed ≠ [] :=
  placed_chain_ne_nil placed_factor_ne_nil e

/-- An expression is not empty. -/
theorem placed_expr_ne_nil (e : Expression) : e.placed ≠ [] := by
  refine placed_chain_ne_nil (fun operand => ?_) e
  cases operand with
  | term inner => exact inner.placed_term_ne_nil

/-- There are no strays in a phrase. -/
theorem exists_token_of_mem_placed {k : Nonterminal} {e : Phrase k} {here : Placed}
    (h : here ∈ e.placed) : ∃ token, here.reading = .token token := by
  have hmem : here.reading ∈ e.placed.map Placed.reading := List.mem_map_of_mem h
  rw [e.map_reading_placed] at hmem
  obtain ⟨token, _, htoken⟩ := List.mem_map.1 hmem
  exact ⟨token, htoken.symm⟩

end Phrase

/-! ## Steps and tokens -/

/-- Steps hand out the pieces to come, and the end once behind them. -/
theorem Cursor.steps_eq_take_end {c : Cursor} {n : Nat} (h : n ≤ c.pending.length + 1) :
    c.steps n =
      (c.pending.map Lexeme.placed ++ [(⟨.token .endOfInput, c.length⟩ : Placed)]).take n := by
  rcases Nat.lt_or_eq_of_le h with hlt | rfl
  · have hle : n ≤ c.pending.length := Nat.le_of_lt_succ hlt
    rw [steps_eq_take hle, List.take_append_of_le_length (by rw [List.length_map]; exact hle)]
  · have hnil : (c.skip c.pending.length).pending = [] := by
      rw [pending_skip, List.drop_length]
    rw [steps_succ_eq, steps_eq_take (Nat.le_refl _), front_of_nil hnil, length_skip,
      List.take_of_length_le (by simp), List.take_of_length_le (by simp)]

namespace Parser

variable {p q : Parser}

/-- The lookahead at its place. -/
def front (p : Parser) : Placed := ⟨.token p.lookahead, p.position⟩

/-- What lies ahead begins with the lookahead, if the end is counted. -/
theorem Ready.exists_ahead_eq (h : p.Ready settings finish) :
    ∃ behind, p.ahead ++ [⟨.token .endOfInput, finish⟩] = p.front :: behind := by
  by_cases hend : p.lookahead = .endOfInput
  · rw [ahead_of_end hend, front, hend, (h.pending_of_end hend).2]
    exact ⟨[], rfl⟩
  · rw [ahead_of_ne rfl hend]
    exact ⟨_, rfl⟩

/-- **From the old lookahead up to the new one** stands what has been consumed. -/
theorem Ready.front_steps (hp : p.Ready settings finish) (hq : q.Ready settings finish)
    {consumed : List Placed} (hne : consumed ≠ []) (hahead : p.ahead = consumed ++ q.ahead) :
    p.front :: p.cursor.steps consumed.length = consumed ++ [q.front] := by
  have hlook : p.lookahead ≠ .endOfInput := by
    intro hend
    rw [ahead_of_end hend] at hahead
    exact hne (List.append_eq_nil_iff.1 hahead.symm).1
  have hpieces : p.ahead = p.front :: p.cursor.pending.map Lexeme.placed := ahead_of_ne rfl hlook
  have hlength : consumed.length ≤ p.cursor.pending.length + 1 := by
    have hcount := congrArg List.length (hahead.symm.trans hpieces)
    rw [List.length_append, List.length_cons, List.length_map] at hcount
    omega
  obtain ⟨behind, hbehind⟩ := hq.exists_ahead_eq
  calc p.front :: p.cursor.steps consumed.length
    _ = (p.ahead ++ [(⟨.token .endOfInput, finish⟩ : Placed)]).take (consumed.length + 1) := by
        rw [Cursor.steps_eq_take_end hlength, hp.length_eq, hpieces]
        rfl
    _ = (consumed ++ q.front :: behind).take (consumed.length + 1) := by
        rw [hahead, List.append_assoc, hbehind]
    _ = consumed ++ [q.front] := by
        rw [List.take_length_add_append]
        rfl

/-! ## Rules -/

/-- Between one parser and a later one a phrase has been consumed, and nothing else. -/
structure Consumed (settings : Settings) {k : Nonterminal} (p : Parser) (e : Phrase k)
    (q : Parser) : Prop where
  ne_nil : e.placed ≠ []
  /-- The phrase stands from the old lookahead up to the new one. -/
  front_steps : p.front :: p.cursor.steps e.placed.length = e.placed ++ [q.front]
  /-- Nothing but tokens has been handed out, -/
  no_stray : ∀ here ∈ p.cursor.steps e.placed.length, ∃ token, here.reading = .token token
  /-- by as many steps as there are tokens in the phrase. -/
  cursor_eq : q.cursor = p.cursor.skip e.placed.length
  length_reads : q.reads.length = p.reads.length + e.placed.length
  nesting_le : e.nesting + p.depth ≤ settings.maxDepth
  depth_eq : q.depth = p.depth
  /-- The new lookahead does not go on with the phrase. -/
  stops : ∀ op, q.lookahead = .operator op → ¬ k.Continues op

/-- **A rule that comes to a value** has read what its outline reads, which is a phrase, and the
    value is left on the stack by the code of the phrase. -/
theorem Ready.exists_phrase {rule : Rule Binary64} {outline : Outline.Rule} {k : Nonterminal}
    {budget : Nat} {value : Binary64} (h : p.Ready settings finish)
    (hrealizes : Realizes settings finish rule outline) (hreads : Outline.Reads outline k budget)
    (hrule : rule p = .ok value q) :
    ∃ e : Phrase k, e.nesting ≤ budget ∧ p.ahead = e.placed ++ q.ahead ∧ Stops k q.ahead ∧
      execute e.code [] = .ok [value] := by
  have hfollows := hrealizes p [] h
  rw [Follows, hrule] at hfollows
  rcases hcode : execute (outline p.ahead).code [] with (fault | _) | reached
  · rw [hcode] at hfollows
    obtain ⟨_, hfault, _⟩ := hfollows
    cases hfault
  · rw [hcode] at hfollows
    exact hfollows.elim
  rw [hcode] at hfollows
  rcases hending : (outline p.ahead).ending with fault | rest
  · rw [hending] at hfollows
    obtain ⟨_, hfault, _⟩ := hfollows
    cases hfault
  rw [hending] at hfollows
  obtain ⟨_, _, hok, _, _, rfl, rfl⟩ := hfollows
  cases hok
  obtain ⟨e, hnesting, hahead, hphrase, hstops, _⟩ := (hreads _ _ _).1 ⟨rfl, hending⟩
  rw [hphrase] at hcode
  exact ⟨e, hnesting, hahead, hstops, hcode⟩

/-- Every step has used up a token of it. -/
theorem Ready.exists_consumed {rule : Rule Binary64} {outline : Outline.Rule} {k : Nonterminal}
    {value : Binary64} (h : p.Ready settings finish) (hdepth : p.depth ≤ settings.maxDepth)
    (hrealizes : Realizes settings finish rule outline)
    (hreads : Outline.Reads outline k p.budget) (hpulls : Pulls settings finish rule)
    (hne : ∀ e : Phrase k, e.placed ≠ []) (hrule : rule p = .ok value q) :
    ∃ e : Phrase k, Consumed settings p e q ∧ execute e.code [] = .ok [value] := by
  obtain ⟨e, hnesting, hahead, hstops, hcode⟩ := h.exists_phrase hrealizes hreads hrule
  obtain ⟨n, hpulled⟩ := hpulls p h
  rw [hrule] at hpulled
  have hq : q.Ready settings finish := hpulled.ready
  obtain rfl : n = e.placed.length := by
    have hused : n + q.remaining = p.remaining := hpulled.remaining_eq
    rw [hq.remaining_eq, h.remaining_eq, hahead, List.length_append] at hused
    omega
  have hfront := h.front_steps hq (hne e) hahead
  refine ⟨e, ⟨hne e, hfront, fun here hhere => ?_, hpulled.cursor_eq, hpulled.pulls_eq, ?_,
    hpulled.depth_eq value q rfl, fun op hop => ?_⟩, hcode⟩
  · have hmem : here ∈ e.placed ++ [q.front] := by
      rw [← hfront]
      exact List.mem_cons_of_mem _ hhere
    rcases List.mem_append.1 hmem with hmem | hmem
    · exact Phrase.exists_token_of_mem_placed hmem
    · rw [List.mem_singleton.1 hmem]
      exact ⟨_, rfl⟩
  · rw [budget, h.settings_eq] at hnesting
    omega
  · exact hstops op q.position _ (ahead_of_ne hop Token.noConfusion)

/-- What a parser consumes that is ready, rule by rule. -/
theorem Available.consumes (h : Available settings text p) :
    (∀ value q, factor p = .ok value q →
      ∃ e : Phrase (.operand .product), Consumed settings p e q ∧ e.eval = .ok value) ∧
    (∀ value q, term p = .ok value q →
      ∃ e : Phrase (.chain .product), Consumed settings p e q ∧ e.eval = .ok value) ∧
    (∀ value q, expr p = .ok value q →
      ∃ e : Expression, Consumed settings p e q ∧ e.eval = .ok value) := by
  obtain ⟨_, hreached⟩ := h.reached
  have hready := hreached.ready
  have hrealizes := factorWithin_realizes settings (Text.byteLength text.toList) p.budget
  have hreads := Outline.factorWithin_reads settings.maxDepth (Text.byteLength text.toList) p.budget
  have hpulls := pulls_factorWithin settings (Text.byteLength text.toList) p.budget
  refine ⟨fun value q hrule => ?_, fun value q hrule => ?_, fun value q hrule => ?_⟩
  · obtain ⟨e, hconsumed, hcode⟩ := hready.exists_consumed h.depth_le hrealizes hreads hpulls
      Phrase.placed_factor_ne_nil hrule
    exact ⟨e, hconsumed, deliver_eq_ok.1 ((e.does_code []).symm.trans hcode)⟩
  · obtain ⟨e, hconsumed, hcode⟩ := hready.exists_consumed h.depth_le (chain_realizes hrealizes)
      (Outline.chain_reads hreads) (pulls_chain hpulls) Phrase.placed_term_ne_nil hrule
    exact ⟨e, hconsumed, deliver_eq_ok.1 ((e.does_code []).symm.trans hcode)⟩
  · obtain ⟨e, hconsumed, hcode⟩ := hready.exists_consumed h.depth_le (exprBy_realizes hrealizes)
      (Outline.exprBy_reads hreads) (pulls_exprBy hpulls) Phrase.placed_expr_ne_nil hrule
    exact ⟨e, hconsumed, deliver_eq_ok.1 ((e.does_code []).symm.trans hcode)⟩

/-- **Each rule consumes its own phrase and nothing else.**  Take a parser that was made behind any
    number of steps through a text, after any calls, and at any moment of one more call.  If the
    rule for factors, for terms or for expressions comes to a value there, then from the old
    lookahead up to the new one stands a phrase of that nonterminal, nested no deeper than the
    parentheses that are open leave room for, and the value is that of the phrase.  The cursor has
    taken a step for each token of it and has met no stray, and the new lookahead does not go on
    with the phrase. -/
theorem rules_consume_their_phrases {settings : Settings} {text : String} {k : Nat} {start : Parser}
    (hstart : Parser.start settings ((Cursor.ofText text).skip k) = .ok start)
    (calls : List Call) (call : Call) {m : Moment}
    (hm : Leads (call.begin (after calls start)) m) :
    (∀ value q, factor m.parser = .ok value q →
      ∃ e : Phrase (.operand .product), Consumed settings m.parser e q ∧ e.eval = .ok value) ∧
    (∀ value q, term m.parser = .ok value q →
      ∃ e : Phrase (.chain .product), Consumed settings m.parser e q ∧ e.eval = .ok value) ∧
    (∀ value q, expr m.parser = .ok value q →
      ∃ e : Expression, Consumed settings m.parser e q ∧ e.eval = .ok value) := by
  have havailable := (available_of_start hstart).after calls
  have hheld := ((havailable.regular call).leads hm).1.held
  exact Available.consumes ⟨hheld.reached, hheld.depth_le⟩

/-- Behind an empty parenthesis, which is still counted as open, a quotient is consumed. -/
theorem quotient_consumed_behind_failure :
    ∃ start, Parser.start { maxDepth := 1 } (Cursor.ofText "( ) 6 / 3 + 1") = .ok start ∧
      (after [.factor, .eat .rightParen] start).depth = 1 ∧
      ∃ (q : Parser) (e : Phrase (.chain .product)),
        term (after [.factor, .eat .rightParen] start) = .ok (.ofNat 2) q ∧
        q.lookahead = .operator .add ∧ e.eval = .ok (.ofNat 2) ∧
        Consumed { maxDepth := 1 } (after [.factor, .eat .rightParen] start) e q := by
  have hstart : Parser.start { maxDepth := 1 } ((Cursor.ofText "( ) 6 / 3 + 1").skip 0) =
      .ok ⟨{ maxDepth := 1 }, (Cursor.ofText "( ) 6 / 3 + 1").skip 1, .leftParen, 0, 0,
        #[.read .leftParen 0]⟩ := by
    decide +kernel
  obtain ⟨_, hterm, _⟩ := rules_consume_their_phrases hstart [.factor, .eat .rightParen]
    (.chain .product) .refl
  refine ⟨_, hstart, by decide +kernel, ?_⟩
  have hparser (p : Parser) : ((Call.chain .product).begin p).parser = p := rfl
  rw [hparser] at hterm
  generalize hp : after [.factor, .eat .rightParen] _ = p at hterm ⊢
  have houtcome : outcomeOf (term p) = .ok (.ofNat 2) := by
    rw [← hp]
    decide +kernel
  have hlook : (ending (term p)).lookahead = .operator .add := by
    rw [← hp]
    decide +kernel
  rcases hrun : term p with ⟨value, q⟩ | ⟨fault, q⟩
  · rw [hrun] at houtcome hlook
    have hvalue : value = .ofNat 2 := Except.ok.inj houtcome
    obtain ⟨e, hconsumed, heval⟩ := hterm value q hrun
    rw [hvalue] at heval
    exact ⟨q, e, by rw [hvalue], hlook, heval, hconsumed⟩
  · rw [hrun] at houtcome
    cases houtcome

end Parser

end Calculator
