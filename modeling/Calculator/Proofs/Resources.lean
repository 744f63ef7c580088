/-
  What a call may use.

  Problem: rules call each other and go round in chains, and the end of the input can be consumed
  over and over again.  Show that every call comes to an end all the same, and bound what it uses on
  the way: the moments, the pieces that it is handed, and the factors that are active at once.

  1. **Pieces** — every step of a rule uses up one of the tokens that remain (`Parser.Pulled`), but
     for the one that consumes the end behind an expression (`Ready.stepped_parse_le`).

  2. **Moments** — `Moment.effort`: what is still to be done, at most.  A token that remains is worth
     more than all that can be begun behind it, and so the effort goes down with each step
     (`Regular.effort_lt`), also where no token is used up.

  3. **Nesting** — `Moment.factors`: the factors that are active.  All of them but one wait for the
     expression in a parenthesis that is open, and so the limit on nesting bounds them.

  4. **The crux (`factorCut_eq`)** — a factor whose recursion is cut off, whatever it would do
     instead of going deeper, is the factor itself as long as the limit comes before the cut.

  5. **Result (`evaluation_is_bounded`)** — of evaluations, and of all calls in all states that a
     parser can come to.
-/
import Calculator.Proofs.Passages

namespace Calculator

namespace Parser

variable {settings : Settings} {finish : Nat} {text : String} {p q : Parser}

/-! ## Pieces -/

/-- The lookahead is the only token that may remain besides the pieces to come. -/
theorem remaining_le (p : Parser) : p.remaining ≤ p.cursor.pending.length + 1 := by
  rw [remaining, p.cursor.left_eq]
  split <;> omega

/-- Where the input has ended, nothing remains. -/
theorem Ready.remaining_of_end (h : p.Ready settings finish) (hend : p.lookahead = .endOfInput) :
    p.remaining = 0 := by
  rw [h.remaining_eq, ahead_of_end hend]
  rfl

/-- **A whole text** takes at most one step more than tokens remain, and takes it exactly if the
    input has to end behind the expression and does. -/
theorem Ready.stepped_parse_le (h : p.Ready settings finish) :
    ∃ n, Stepped p n (parse p) ∧ n ≤ p.remaining + 1 ∧
      (n = p.remaining + 1 ↔ settings.trailing = .rejected ∧ ∃ v q, parse p = .ok v q) := by
  rw [parse_eq]
  obtain ⟨n, hexpr⟩ := pulls_expr settings finish p h
  rcases hresult : expr p with ⟨value, q⟩ | ⟨fault, q⟩
  case error =>
    rw [hresult] at hexpr
    have hused : n + q.remaining = p.remaining := hexpr.remaining_eq
    refine ⟨n, hexpr.toStepped.andThen_error, by omega, ⟨fun hn => by omega, ?_⟩⟩
    rintro ⟨_, v, r, hr⟩
    cases hr
  rw [hresult] at hexpr
  have hq := hexpr.ready_of_ok
  have hused : n + q.remaining = p.remaining := hexpr.remaining_eq
  rw [andThen_ok]
  rcases htrailing : settings.trailing with _ | _
  · have hsettle := (pulled_settle_ignored hq htrailing value).toStepped
    refine ⟨n, hexpr.toStepped.andThen_ok hsettle, by omega, ⟨fun hn => by omega, ?_⟩⟩
    rintro ⟨hrejected, _⟩
    cases hrejected
  by_cases hend : q.lookahead = .endOfInput
  · have hfront : q.cursor.front.reading = .token .endOfInput := by rw [hq.front_of_end hend]
    have hnothing := hq.remaining_of_end hend
    have hsettle := stepped_looking hfront value
    rw [← settle_of_end hq htrailing hend value] at hsettle
    refine ⟨n + 1, hexpr.toStepped.andThen_ok hsettle, by omega, ?_⟩
    rw [settle_of_end hq htrailing hend]
    exact ⟨fun _ => ⟨rfl, _, _, rfl⟩, fun _ => by omega⟩
  · have hfault : Pulled settings finish q 0
        (.error (q.misplaced .endOfInput) q : EStateM.Result Fault Parser Binary64) q.depth :=
      pulled_error hq rfl
    have hsettle := hfault.toStepped
    rw [← settle_of_ne_end hq htrailing hend value] at hsettle
    refine ⟨n, hexpr.toStepped.andThen_ok hsettle, by omega, ⟨fun hn => by omega, ?_⟩⟩
    rw [settle_of_ne_end hq htrailing hend]
    rintro ⟨_, v, r, hr⟩
    cases hr

/-- What is made of the value of a rule takes no step. -/
theorem Stepped.valued {rule : Rule Binary64} {n : Nat} (h : Stepped p n (rule p)) :
    Stepped p n (Call.valued rule p) := by
  rw [Call.valued_eq]
  rcases hresult : rule p with ⟨value, q⟩ | ⟨fault, q⟩
  · rw [hresult] at h
    exact ⟨h.cursor_eq, h.reads_eq, h.pulls_eq⟩
  · rw [hresult] at h
    exact h.andThen_error

/-- Consuming a token takes one step at most. -/
theorem Ready.stepped_eat_le (h : p.Ready settings finish) (kind : TokenKind) :
    ∃ n, Stepped p n ((Call.eat kind).run p) ∧ n ≤ 1 := by
  have hrun : (Call.eat kind).run p = andThen (eat kind p) fun _ q => .ok none q := by
    simp only [Call.run, run_bind, run_pure]
  rw [hrun]
  rcases eat_cases kind p with ⟨token, _, hfront, heat⟩ | ⟨x, _, hfront, heat⟩ | ⟨_, heat⟩
  · have hstepped := stepped_looking hfront (none : Option Binary64)
    rw [heat]
    exact ⟨1, hstepped, Nat.le_refl 1⟩
  · have hlook : p.lookahead ≠ .endOfInput := by
      intro hend
      rw [h.front_of_end hend] at hfront
      cases hfront
    have hadvance := pulled_advance h hlook
    rw [advance_of_stray hfront] at hadvance
    rw [heat]
    exact ⟨1, hadvance.toStepped.andThen_error, Nat.le_refl 1⟩
  · have hfault : Pulled settings finish p 0
        (.error (p.misplaced kind) p : EStateM.Result Fault Parser Unit) p.depth :=
      pulled_error h rfl
    rw [heat]
    exact ⟨0, hfault.toStepped.andThen_error, Nat.zero_le 1⟩

/-- **Every call** takes two steps more than there are pieces to come, at most.  The last of these is
    the end, which is consumed once more behind an expression that it has to follow. -/
theorem Ready.stepped_call_le (h : p.Ready settings finish) (call : Call) :
    ∃ n, Stepped p n (call.run p) ∧ n ≤ p.cursor.pending.length + 2 ∧
      (n = p.cursor.pending.length + 2 →
        call = .parse ∧ settings.trailing = .rejected ∧ ∃ v q, call.run p = .ok v q) := by
  have hremaining := p.remaining_le
  have hrule : ∀ rule : Rule Binary64, Pulls settings finish rule →
      ∃ n, Stepped p n (Call.valued rule p) ∧ n ≤ p.remaining := by
    intro rule hpulls
    obtain ⟨n, hpulled⟩ := hpulls p h
    have hused := hpulled.remaining_eq
    exact ⟨n, hpulled.toStepped.valued, by omega⟩
  have hfactor : Pulls settings finish factor :=
    fun q hq => pulls_factorWithin settings finish q.budget q hq
  have hterm : Pulls settings finish term :=
    fun q hq => pulls_chain (pulls_factorWithin settings finish q.budget) q hq
  match call with
  | .eat kind =>
    obtain ⟨n, hstepped, hle⟩ := h.stepped_eat_le kind
    exact ⟨n, hstepped, by omega, fun hn => by omega⟩
  | .factor =>
    obtain ⟨n, hstepped, hle⟩ := hrule factor hfactor
    exact ⟨n, hstepped, by omega, fun hn => by omega⟩
  | .chain .product =>
    obtain ⟨n, hstepped, hle⟩ := hrule term hterm
    exact ⟨n, hstepped, by omega, fun hn => by omega⟩
  | .chain .sum =>
    obtain ⟨n, hstepped, hle⟩ := hrule expr (pulls_expr settings finish)
    exact ⟨n, hstepped, by omega, fun hn => by omega⟩
  | .parse =>
    obtain ⟨n, hstepped, hle, hiff⟩ := h.stepped_parse_le
    refine ⟨n, hstepped.valued, by omega, fun hn => ⟨rfl, ?_⟩⟩
    obtain ⟨hrejected, v, q, hq⟩ := hiff.1 (by omega)
    refine ⟨hrejected, some v, q, ?_⟩
    rw [Call.run, Call.valued_eq, hq]
    rfl

/-! ## Moments -/

/-- What a task may begin before a token is used up. -/
def Task.weight : Task → Nat
  | .call .parse => 13
  | .call (.chain .sum) => 10
  | .call (.chain .product) => 6
  | .call .factor | .call (.eat _) | .goOn _ _ => 2
  | .eat _ _ => 1
  | .give _ | .done | .fail _ => 0

/-- What is still to be done with a value that is waited for. -/
def Frame.weight : Frame → Nat
  | .first _ | .right _ _ _ _ => 3
  | .inside | .rest => 2

/-- What is still to be done with all values that are waited for. -/
def Frame.weights : List Frame → Nat
  | [] => 0
  | frame :: waiting => frame.weight + weights waiting

/-- What is still to be done, at most.  A token is worth what can be begun behind it. -/
def Moment.effort (m : Moment) : Nat :=
  12 * m.parser.remaining + m.task.weight + Frame.weights m.waiting

theorem Task.weight_ofExcept_le {value : Except Fault Binary64} {next : Binary64 → Task} {n : Nat}
    (h : ∀ v, (next v).weight ≤ n) : (Task.ofExcept value next).weight ≤ n := by
  rcases value with fault | v
  · exact Nat.zero_le n
  · exact h v

/-- Where the input has ended, it has ended again behind the end. -/
theorem Ready.remaining_looking_of_end {token : Token} (h : p.Ready settings finish)
    (hfront : p.cursor.front.reading = .token token) (hend : p.lookahead = .endOfInput) :
    (p.looking token).remaining = 0 := by
  refine (h.looking hfront).remaining_of_end ?_
  rw [h.front_of_end hend] at hfront
  cases hfront
  rfl

variable {depth : Nat} {waiting : List Frame} {m m' last : Moment} {passed : List Moment}

/-- Handing out a stray uses up a piece. -/
theorem remaining_passing_le (p : Parser) :
    ({ p with cursor := p.cursor.next.2 } : Parser).remaining ≤ p.remaining := by
  have hleft : p.cursor.next.2.left ≤ p.cursor.left := by
    rw [p.cursor.next.2.left_eq, p.cursor.left_eq, Cursor.pending_next, List.length_tail]
    omega
  show p.cursor.next.2.left + _ ≤ p.cursor.left + _
  exact Nat.add_le_add_right hleft _

/-- What is begun by a call is less than the call. -/
theorem effort_enter_lt (call : Call) (waiting : List Frame) (p : Parser) :
    (call.enter waiting p).effort < (⟨.call call, waiting, p⟩ : Moment).effort := by
  rcases call with kind | _ | (_ | _) | _
  case factor =>
    have hle : (Call.factor.enter waiting p).effort ≤
        12 * p.remaining + 1 + Frame.weights waiting := by
      rw [Call.enter]
      rcases p.lookahead with literal | op | _ | _ | _
      case integer =>
        have hremaining : (p.noted literal).remaining = p.remaining := by cases literal <;> rfl
        have hweight : (Task.ofExcept (literal.toBinary64.checked p.position) fun value =>
            .eat .integer (.give value)).weight ≤ 1 := Task.weight_ofExcept_le fun _ => Nat.le_refl 1
        show 12 * (p.noted literal).remaining + (Task.ofExcept (literal.toBinary64.checked p.position)
          fun value => .eat .integer (.give value)).weight + Frame.weights waiting ≤ _
        omega
      case leftParen =>
        dsimp only
        split <;> simp only [Moment.effort, Task.weight] <;> omega
      all_goals
        simp only [Moment.effort, Task.weight]
        omega
    simp only [Moment.effort, Task.weight] at hle ⊢
    omega
  all_goals
    simp only [Call.enter, Call.operand, Moment.effort, Task.weight, Frame.weight, Frame.weights]
    omega

/-- What is done with a value is less than the frame that has waited for it. -/
theorem effort_resume_lt (frame : Frame) (value : Binary64) (waiting : List Frame) (p : Parser) :
    (frame.resume value waiting p).effort <
      (⟨.give value, frame :: waiting, p⟩ : Moment).effort := by
  rcases frame with level | ⟨level, op, left, place⟩ | _ | _
  case right =>
    have hweight : (Task.ofExcept (op.apply left value place) fun v => .goOn level v).weight ≤ 2 :=
      Task.weight_ofExcept_le fun _ => Nat.le_refl 2
    show 12 * p.remaining + (Task.ofExcept (op.apply left value place) fun v => .goOn level v).weight +
      Frame.weights waiting < 12 * p.remaining + 0 + (3 + Frame.weights waiting)
    omega
  case rest =>
    rw [Frame.resume]
    rcases p.settings.trailing with _ | _
    · have hremaining : (if p.lookahead = .endOfInput then p
          else p.recorded (.ignored p.position)).remaining = p.remaining := by
        split <;> rfl
      simp only [Moment.effort, Task.weight, Frame.weight, Frame.weights, hremaining]
      omega
    · simp only [Moment.effort, Task.weight, Frame.weight, Frame.weights]
      omega
  case first =>
    show 12 * p.remaining + 2 + Frame.weights waiting <
      12 * p.remaining + 0 + (3 + Frame.weights waiting)
    omega
  case inside =>
    show 12 * p.remaining + 1 + Frame.weights waiting <
      12 * p.remaining + 0 + (2 + Frame.weights waiting)
    omega

/-- **The effort goes down** with each step. -/
theorem Regular.effort_lt (h : Regular settings text depth m) (hstep : Step m m') :
    m'.effort < m.effort := by
  obtain ⟨n, hreached⟩ := h.held.reached
  have hready := hreached.ready
  have hsound := h.sound
  cases hstep with
  | enter call waiting q => exact effort_enter_lt call waiting q
  | @consume token next waiting q hfront =>
    have hused : q.lookahead ≠ .endOfInput → 1 + (q.looking token).remaining = q.remaining :=
      hready.remaining_looking hfront
    have hended : q.lookahead = .endOfInput → (q.looking token).remaining = 0 :=
      hready.remaining_looking_of_end hfront
    rcases next with _ | value | ⟨level, op, left, place⟩ | _
    case operand =>
      -- an operator is no end, and so a token is used up
      have hlook : q.lookahead ≠ .endOfInput := ne_end_of_kind hsound.1 (by simp)
      have hlevel : (Task.call (Call.operand level)).weight ≤ 6 := by cases level <;> decide
      have hless := hused hlook
      show 12 * (q.looking token).remaining + (Task.call (Call.operand level)).weight +
        (3 + Frame.weights waiting) < 12 * q.remaining + 1 + Frame.weights waiting
      omega
    case inside =>
      have hlook : q.lookahead ≠ .endOfInput := ne_end_of_kind hsound.1 (by simp)
      have hless := hused hlook
      show 12 * (q.looking token).remaining + 10 + (2 + Frame.weights waiting) <
        12 * q.remaining + 1 + Frame.weights waiting
      omega
    all_goals
      show 12 * (q.looking token).remaining + 0 + Frame.weights waiting <
        12 * q.remaining + 1 + Frame.weights waiting
      by_cases hlook : q.lookahead = .endOfInput
      · have hnothing := hended hlook
        omega
      · have hless := hused hlook
        omega
  | stray next waiting q hfront =>
    have hle := q.remaining_passing_le
    simp only [Moment.effort, Task.weight]
    omega
  | misplaced next waiting q hkind =>
    simp only [Moment.effort, Task.weight]
    omega
  | finish left waiting q hop =>
    simp only [Moment.effort, Task.weight]
    omega
  | round left waiting q hop =>
    simp only [Moment.effort, Task.weight]
    omega
  | resume frame value waiting q => exact effort_resume_lt frame value waiting q

/-- **A passage is no longer** than what is still to be done when it begins. -/
theorem Regular.length_le_effort (h : Regular settings text depth m)
    (hpassage : Passage m passed last) : passed.length + last.effort ≤ m.effort := by
  induction hpassage with
  | nil => exact Nat.le_of_eq (Nat.zero_add _)
  | cons hstep _ ih =>
    have hless := h.effort_lt (step_cases hstep)
    have hmore := ih (h.step (step_cases hstep)).1
    rw [List.length_cons]
    omega

/-- What a call is worth, with the pieces to come. -/
theorem effort_begin_le (call : Call) (p : Parser) :
    (call.begin p).effort ≤ 12 * p.cursor.pending.length + 25 := by
  have hremaining := p.remaining_le
  have hweight : (Task.call call).weight ≤ 13 := by
    rcases call with kind | _ | (_ | _) | _ <;> simp [Task.weight]
  show 12 * p.remaining + (Task.call call).weight + 0 ≤ _
  omega

/-! ## Nesting -/

/-- How many of the factors that are active have the next thing to do: one, from the moment at which
    it is called until it gives its value, but for the time during which it waits for the expression
    in its parenthesis. -/
def Task.factors : Task → Nat
  | .call .factor | .eat _ .inside | .eat .integer (.give _) | .eat .rightParen (.give _) => 1
  | .call _ | .eat _ _ | .goOn _ _ | .give _ | .done | .fail _ => 0

/-- How many factors are active: the one that has the next thing to do, and those that wait for the
    expression in their parenthesis. -/
def Moment.factors (m : Moment) : Nat := m.task.factors + opened m.waiting

/-- **The limit bounds the factors.**  All of them but one have opened a parenthesis. -/
theorem Regular.factors_le (h : Regular settings text depth m) :
    depth + m.factors ≤ settings.maxDepth + 1 := by
  have hle := h.held.depth_le
  have hcount := h.held.depth_eq
  have hone : m.task.factors ≤ 1 := by
    rw [Task.factors.eq_def]
    split <;> omega
  rw [Moment.factors]
  omega

/-! ## Cutting recursion off -/

/-- A factor that calls itself until so many calls are active, and is cut off there.  How many
    parentheses are open is asked of the parser. -/
def factorCut (cut : Rule Binary64) : Nat → Rule Binary64
  | 0 => cut
  | n + 1 => factorBy fun p =>
    if p.depth < p.settings.maxDepth then group (exprBy (factorCut cut n)) p else refuse p

/-- A whole text, with factors that are cut off. -/
def parseCut (cut : Rule Binary64) (n : Nat) : Rule Binary64 := fun p =>
  andThen (exprBy (factorCut cut n) p) settle

/-- What is done for a call if factors are cut off. -/
def Call.runCut (cut : Rule Binary64) (n : Nat) : Call → Rule (Option Binary64)
  | .eat kind => (Call.eat kind).run
  | .factor => valued (factorCut cut n)
  | .chain .product => valued (termBy (factorCut cut n))
  | .chain .sum => valued (exprBy (factorCut cut n))
  | .parse => valued (parseCut cut n)

/-- Rounds are the same with operands that are the same wherever so many parentheses are open. -/
theorem rounds_operand_congr {level : Level} {operand operand' : Rule Binary64}
    (hpulls : Pulls settings finish operand')
    (hsame : ∀ p, p.Ready settings finish → p.depth = depth → operand p = operand' p) :
    ∀ (n : Nat) (left : Binary64) (p : Parser), p.Ready settings finish → p.depth = depth →
      rounds level operand n left p = rounds level operand' n left p := by
  intro n
  induction n with
  | zero => exact fun _ _ _ _ => rfl
  | succ n ih =>
    intro left p h hdepth
    rcases hop : operatorOf level p with _ | op
    · rw [rounds_of_operatorOf_eq_none hop, rounds_of_operatorOf_eq_none hop]
    rw [rounds_of_operatorOf hop, rounds_of_operatorOf hop]
    obtain ⟨_, heat⟩ := pulls_eat (.operator op) (by simp) p h
    refine andThen_congr fun _ q hq => ?_
    rw [hq] at heat
    have hqdepth : q.depth = depth := (heat.depth_eq _ _ rfl).trans hdepth
    rw [hsame q heat.ready hqdepth]
    obtain ⟨_, hright⟩ := hpulls q heat.ready
    refine andThen_congr fun right r hr => ?_
    rw [hr] at hright
    have hrdepth : r.depth = depth := (hright.depth_eq _ _ rfl).trans hqdepth
    have hready : r.Ready settings finish := hright.ready
    rcases op.apply left right p.position with fault | value
    · rfl
    · exact ih value _ (hready.recorded _) hrdepth

/-- So are chains. -/
theorem chain_operand_congr {level : Level} {operand operand' : Rule Binary64}
    (hpulls : Pulls settings finish operand')
    (hsame : ∀ p, p.Ready settings finish → p.depth = depth → operand p = operand' p)
    (h : p.Ready settings finish) (hdepth : p.depth = depth) :
    chain level operand p = chain level operand' p := by
  rw [chain_eq, chain_eq, hsame p h hdepth]
  obtain ⟨_, hfirst⟩ := hpulls p h
  refine andThen_congr fun first q hq => ?_
  rw [hq] at hfirst
  exact rounds_operand_congr hpulls hsame _ first q hfirst.ready
    ((hfirst.depth_eq _ _ rfl).trans hdepth)

/-- So are expressions, with factors that are. -/
theorem exprBy_factor_congr {factor factor' : Rule Binary64}
    (hpulls : Pulls settings finish factor')
    (hsame : ∀ p, p.Ready settings finish → p.depth = depth → factor p = factor' p)
    (h : p.Ready settings finish) (hdepth : p.depth = depth) :
    exprBy factor p = exprBy factor' p :=
  chain_operand_congr (pulls_chain hpulls)
    (fun _ hq hqdepth => chain_operand_congr hpulls hsame hq hqdepth) h hdepth

/-- Factors are the same if they do the same with an opening parenthesis. -/
theorem factorBy_congr {parenthesized parenthesized' : Rule Binary64}
    (hsame : p.lookahead = .leftParen → parenthesized p = parenthesized' p) :
    factorBy parenthesized p = factorBy parenthesized' p := by
  rcases hlook : p.lookahead with literal | op | _ | _ | _
  case integer => rw [factorBy_of_integer hlook, factorBy_of_integer hlook]
  case leftParen => rw [factorBy_of_leftParen hlook, factorBy_of_leftParen hlook, hsame hlook]
  all_goals
    rw [factorBy_of_ne (by simp [hlook]) (by simp [hlook]),
      factorBy_of_ne (by simp [hlook]) (by simp [hlook])]

/-- **The cut plays no part** where it comes behind the limit.  The induction is on the calls that
    may be active; each call inside another has one parenthesis more open. -/
theorem factorCut_eq (cut : Rule Binary64) :
    ∀ (n : Nat) (p : Parser), p.Ready settings finish → p.depth ≤ settings.maxDepth →
      settings.maxDepth < p.depth + n → factorCut cut n p = factorWithin p.budget p := by
  intro n
  induction n with
  | zero => exact fun p _ hle hlt => by omega
  | succ n ih =>
    intro p h hle hlt
    rw [factorCut]
    rcases hbudget : p.budget with _ | budget
    · have hlimit : ¬ p.depth < p.settings.maxDepth := by
        rw [budget] at hbudget
        omega
      refine factorBy_congr fun _ => ?_
      rw [if_neg hlimit]
    · have hlimit : p.depth < p.settings.maxDepth := by
        rw [Parser.budget] at hbudget
        omega
      refine factorBy_congr fun hlook => ?_
      rw [if_pos hlimit, group_eq, group_eq]
      have hkind : p.lookahead.kind = .leftParen := by
        rw [hlook]
        rfl
      have heat := pulled_advance h (by rw [hlook]; exact Token.noConfusion)
      rw [← eat_of_kind_eq hkind] at heat
      refine andThen_congr fun _ q hq => ?_
      rw [hq] at heat
      have hdepth : q.depth + 1 = p.depth + 1 := congrArg (· + 1) (heat.depth_eq _ _ rfl)
      have hready : q.Ready settings finish := heat.ready
      have hinner : ∀ r : Parser, r.Ready settings finish → r.depth = p.depth + 1 →
          factorCut cut n r = factorWithin budget r := by
        intro r hr hrdepth
        have hwithin : r.budget = budget := by
          rw [Parser.budget] at hbudget ⊢
          rw [hr.settings_eq, ← h.settings_eq]
          omega
        rw [h.settings_eq] at hlimit
        rw [← hwithin]
        exact ih r hr (by omega) (by omega)
      rw [exprBy_factor_congr (pulls_factorWithin settings finish budget) hinner
        (hready.withDepth (q.depth + 1)) hdepth]

/-- Factors are the same wherever as many parentheses are open as here. -/
theorem Ready.factorCut_eq (h : p.Ready settings finish) (hle : p.depth ≤ settings.maxDepth)
    (cut : Rule Binary64) {n : Nat} (hlt : settings.maxDepth < p.depth + n) (q : Parser)
    (hq : q.Ready settings finish) (hdepth : q.depth = p.depth) :
    factorCut cut n q = factorWithin p.budget q := by
  have hwithin : q.budget = p.budget := by
    rw [budget, budget, hq.settings_eq, h.settings_eq, hdepth]
  rw [← hwithin]
  exact Parser.factorCut_eq cut n q hq (by omega) (by omega)

/-- Whole texts are the same if they are cut off behind the limit. -/
theorem Ready.parseCut_eq (h : p.Ready settings finish) (hle : p.depth ≤ settings.maxDepth)
    (cut : Rule Binary64) {n : Nat} (hlt : settings.maxDepth < p.depth + n) :
    parseCut cut n p = parse p := by
  have hexpr : exprBy (factorCut cut n) p = expr p :=
    exprBy_factor_congr (pulls_factorWithin settings finish p.budget)
      (h.factorCut_eq hle cut hlt) h rfl
  rw [parseCut, hexpr, parse_eq]

/-- Every call is the same if it is cut off behind the limit. -/
theorem Ready.runCut_eq (h : p.Ready settings finish) (hle : p.depth ≤ settings.maxDepth)
    (cut : Rule Binary64) {n : Nat} (hlt : settings.maxDepth < p.depth + n) (call : Call) :
    call.runCut cut n p = call.run p := by
  have hfactor := h.factorCut_eq hle cut hlt
  have hpulls := pulls_factorWithin settings finish p.budget
  match call with
  | .eat kind => rfl
  | .factor =>
    rw [Call.runCut, Call.run, Call.valued_eq, Call.valued_eq, hfactor p h rfl]
    rfl
  | .chain .product =>
    rw [Call.runCut, Call.run, Call.valued_eq, Call.valued_eq, termBy,
      chain_operand_congr hpulls hfactor h rfl]
    rfl
  | .chain .sum =>
    rw [Call.runCut, Call.run, Call.valued_eq, Call.valued_eq, exprBy_factor_congr hpulls hfactor h rfl]
    rfl
  | .parse =>
    rw [Call.runCut, Call.run, Call.valued_eq, Call.valued_eq, h.parseCut_eq hle cut hlt]

/-! ## The result -/

/-- What bounds a call of `p` that passes through these moments. -/
structure Bounded (settings : Settings) (call : Call) (p : Parser) (passed : List Moment) :
    Prop where
  /-- The call comes to an end. -/
  length_le : passed.length ≤ 12 * p.cursor.pending.length + 25
  /-- The cursor is asked for two pieces more than there are, at most, -/
  cursor_eq : (ending (call.run p)).cursor =
    p.cursor.skip (passed.filterMap Moment.pulled?).length
  pulls_le : (passed.filterMap Moment.pulled?).length ≤ p.cursor.pending.length + 2
  /-- and for as many only where the input has to end, and does. -/
  rejected_of_pulls : (passed.filterMap Moment.pulled?).length = p.cursor.pending.length + 2 →
    call = .parse ∧ settings.trailing = .rejected ∧ ∃ v q, call.run p = .ok v q
  /-- At no moment are more factors active than the limit on nesting allows for. -/
  factors_le : ∀ m, Leads (call.begin p) m → m.factors ≤ settings.maxDepth + 1
  /-- So nothing changes if recursion is cut off behind them, whatever is done there instead. -/
  runCut_eq : ∀ cut, call.runCut cut (settings.maxDepth + 1) p = call.run p

/-- **Every call is bounded**, in whatever state. -/
theorem Available.bounded (h : Available settings text p) (call : Call) :
    ∃ passed last, Passage (call.begin p) passed last ∧ last.result? = some (call.run p) ∧
      Bounded settings call p passed := by
  obtain ⟨k, hreached⟩ := h.reached
  obtain ⟨passed, last, hpassage, hresult, _, _⟩ := h.exists_passage call
  have hregular := h.regular call
  obtain ⟨n, hstepped, hle, hmost⟩ := hreached.ready.stepped_call_le call
  -- the pieces that are handed out on the way are the steps that the rule takes
  have hn : (passed.filterMap Moment.pulled?).length = n := by
    have hpassed := hpassage.pulls_eq hresult
    rw [hstepped.pulls_eq] at hpassed
    omega
  refine ⟨passed, last, hpassage, hresult, ?_, ?_, ?_, ?_, ?_, ?_⟩
  · have hlength := hregular.length_le_effort hpassage
    have heffort := effort_begin_le call p
    omega
  · rw [← Moment.parser_of_result hresult]
    exact hpassage.cursor_eq.1
  · rw [hn]
    exact hle
  · rw [hn]
    exact hmost
  · intro m hm
    have hfactors := (hregular.leads hm).1.factors_le
    omega
  · exact fun cut => hreached.ready.runCut_eq h.depth_le cut (by omega) call

end Parser

/-! ## Evaluations -/

variable {settings : Settings} {text : String}

/-- The outcome of a text if factors are cut off where so many of them are active. -/
def evaluateCut (cut : Rule Binary64) (n : Nat) (settings : Settings) (text : String) :
    Except Fault Binary64 :=
  match Parser.start settings (Cursor.ofText text) with
  | .error fault => .error fault
  | .ok p => outcomeOf (Parser.parseCut cut n p)

namespace Evaluation

/-- **An evaluation** takes at most two steps more than there are pieces, and takes as many exactly
    if the text has to be an expression and has a value. -/
theorem pulls_le (settings : Settings) (text : String) :
    (run settings text).pulls ≤ (Cursor.ofText text).pending.length + 2 ∧
      ((run settings text).pulls = (Cursor.ofText text).pending.length + 2 ↔
        settings.trailing = .rejected ∧ ∃ v, (run settings text).outcome = .ok v) := by
  have hfirst := Parser.pulled_fresh settings text
  have hfresh : (Parser.fresh settings (Cursor.ofText text)).remaining =
      (Cursor.ofText text).pending.length + 1 := rfl
  obtain ⟨houtcome, _, hpulls, _⟩ := run_eq_course settings text
  rw [hpulls, houtcome, course]
  rcases hadvance : Parser.advance (Parser.fresh settings (Cursor.ofText text)) with
    ⟨_, p⟩ | ⟨fault, q⟩
  · rw [hadvance] at hfirst
    obtain ⟨n, hstepped, hle, hiff⟩ := hfirst.ready_of_ok.stepped_parse_le
    have hreads : p.reads.length = 1 := hfirst.pulls_eq
    have hused : 1 + p.remaining = (Parser.fresh settings (Cursor.ofText text)).remaining :=
      hfirst.remaining_eq
    have hvalue : (∃ v q, Parser.parse p = .ok v q) ↔ ∃ v, outcomeOf (Parser.parse p) = .ok v := by
      rcases Parser.parse p with ⟨v, q⟩ | ⟨fault, q⟩ <;> simp [outcomeOf]
    rw [andThen_ok, hstepped.pulls_eq, ← hvalue, ← hiff]
    omega
  · rw [hadvance] at hfirst
    have hone : Calculator.pulls (.error fault q : EStateM.Result Fault Parser Unit) = 1 :=
      hfirst.pulls_eq
    have hone' : Calculator.pulls (.error fault q : EStateM.Result Fault Parser Binary64) = 1 := hone
    refine ⟨?_, ?_⟩
    · show Calculator.pulls (.error fault q : EStateM.Result Fault Parser Binary64) ≤ _
      omega
    · show Calculator.pulls (.error fault q : EStateM.Result Fault Parser Binary64) = _ ↔ _
      constructor
      · intro hmost
        omega
      · rintro ⟨_, v, hv⟩
        cases hv

end Evaluation

/-- An evaluation is the same if it is cut off behind the limit. -/
theorem evaluateCut_eq (cut : Rule Binary64) (settings : Settings) (text : String) :
    evaluateCut cut (settings.maxDepth + 1) settings text = evaluateWith settings text := by
  rw [evaluateCut]
  rcases hstart : Parser.start settings (Cursor.ofText text) with fault | p
  · simp only [evaluateWith, Evaluation.run, hstart]
  · obtain ⟨hreached, hdepth⟩ := Parser.reached_of_start
      (show Parser.start settings ((Cursor.ofText text).skip 0) = .ok p from hstart)
    have hparse := hreached.ready.parseCut_eq (by omega) cut
      (show settings.maxDepth < p.depth + (settings.maxDepth + 1) by omega)
    show outcomeOf (Parser.parseCut cut (settings.maxDepth + 1) p) = _
    rw [hparse, evaluateWith, (Evaluation.run_eq_course settings text).1,
      Evaluation.course_of_start hstart]

/-- **Evaluation is bounded**, by the text in what it reads and by the limit in how deep it goes.  A
    text of so many pieces takes two steps more, at most, and as many only if it has to be an
    expression and has a value; and its outcome is the same if factors are cut off behind the limit,
    whatever would be done there instead.  The same holds of a parser that was made behind any number
    of steps through the text, after any calls, whatever it is asked for then: there is a last
    moment, and not far away; the pieces that are still to come bound the steps that are taken on the
    way, and the limit bounds the factors that are active at any moment. -/
theorem evaluation_is_bounded (settings : Settings) (text : String) :
    Evaluation.cursor settings text =
        (Cursor.ofText text).skip (Evaluation.run settings text).pulls ∧
      (Evaluation.run settings text).pulls ≤ (Cursor.ofText text).pending.length + 2 ∧
      ((Evaluation.run settings text).pulls = (Cursor.ofText text).pending.length + 2 ↔
        settings.trailing = .rejected ∧ ∃ v, (Evaluation.run settings text).outcome = .ok v) ∧
      (∀ cut, evaluateCut cut (settings.maxDepth + 1) settings text = evaluateWith settings text) ∧
      ∀ k start, Parser.start settings ((Cursor.ofText text).skip k) = .ok start →
        ∀ calls call, ∃ passed last,
          Parser.Passage (Parser.Call.begin call (Parser.after calls start)) passed last ∧
            last.result? = some (call.run (Parser.after calls start)) ∧
            Parser.Bounded settings call (Parser.after calls start) passed := by
  obtain ⟨hle, hmost⟩ := Evaluation.pulls_le settings text
  refine ⟨(Evaluation.cursor_eq_skip settings text).1, hle, hmost,
    fun cut => evaluateCut_eq cut settings text, ?_⟩
  intro k start hstart calls call
  exact ((Parser.available_of_start hstart).after calls).bounded call

/-- Seven steps are taken through five pieces.  A parser that has consumed the first parenthesis and
    then a factor is asked for a whole text where there is none, and keeps within the bounds. -/
theorem nested_literal_is_bounded :
    (Evaluation.run ⟨2, .rejected⟩ "((1))").pulls = 7 ∧
      ∃ start, Parser.start ⟨2, .rejected⟩ ((Cursor.ofText "((1))").skip 0) = .ok start ∧
        ∃ passed last,
          Parser.Passage (Parser.Call.begin .parse (Parser.after [.eat .leftParen, .factor] start))
              passed last ∧
            last.result? =
              some (Parser.Call.run .parse (Parser.after [.eat .leftParen, .factor] start)) ∧
            Parser.Bounded ⟨2, .rejected⟩ .parse
              (Parser.after [.eat .leftParen, .factor] start) passed := by
  have hstart : Parser.start ⟨2, .rejected⟩ ((Cursor.ofText "((1))").skip 0) =
      .ok ⟨⟨2, .rejected⟩, (Cursor.ofText "((1))").skip 1, .leftParen, 0, 0,
        #[.read .leftParen 0]⟩ := by
    decide +kernel
  have houtcome : (Evaluation.run ⟨2, .rejected⟩ "((1))").outcome = .ok (.ofNat 1) := by
    decide +kernel
  have hpieces : (Cursor.ofText "((1))").pending.length = 5 := by decide +kernel
  obtain ⟨-, -, hmost, -, hcalls⟩ := evaluation_is_bounded ⟨2, .rejected⟩ "((1))"
  rw [hpieces] at hmost
  refine ⟨hmost.2 ⟨rfl, _, houtcome⟩, _, hstart, ?_⟩
  exact hcalls 0 _ hstart [.eat .leftParen, .factor] .parse

end Calculator
