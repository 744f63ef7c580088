/-
  The record of an evaluation is faithful.

  Problem: records are written at different moments, of tokens one token ahead of where they are used,
  of literals before they are checked and of operators before they are applied.  Show that a reader of
  the record knows what has happened: what was read, what was computed and in which order, what was
  left over, and how it ended.

  1. **Specification** — `Faithful`: the record set against the moments that the evaluation passes
     through, and against the text.  A text that begins with a stray has no such moments; all that is
     recorded of it is that it was begun.

  2. **Views of the record** — `Event.application?`, `rounding?` and `ignored?` pick out records of one
     sort.  Picked out of what is written at a moment, they are what is done there
     (`Moment.views_record?`).

  3. **The crux (`Available.ignoreds_parse`)** — tokens are said to be left over once, and only behind
     a complete expression, since nothing that is part of one says so (`Step.above`).

  4. **Result (`log_is_faithful`)** — for every text, and every outcome, down to the characters of the
     records, from which the events can be made out (see `Records`).
-/
import Calculator.Proofs.Recording
import Calculator.Proofs.Records

namespace Calculator

/-! ## Views of the record -/

/-- The number and the place of a literal, if the event is that it is rounded. -/
def Event.rounding? : Event → Option (Binary64 × Nat)
  | .rounded value position => some (value, position)
  | .started _ | .read .. | .applied .. | .ignored _ | .succeeded .. | .failed .. => none

/-- The place from which on tokens are left over, if the event is that they are ignored. -/
def Event.ignored? : Event → Option Nat
  | .ignored position => some position
  | .started _ | .read .. | .rounded .. | .applied .. | .succeeded .. | .failed .. => none

/-- The number that a literal has been rounded to, if it has been. -/
def Literal.rounding? : Literal × Nat → Option (Binary64 × Nat)
  | (.exact _, _) => none
  | (.rounded value, position) => some (value, position)

namespace Parser

/-- What is written at a moment is what is done there: an operator is applied, a literal is met that
    is rounded, or the rest is ignored. -/
theorem Moment.views_record? (m : Moment) :
    m.record?.bind Event.application? = m.application? ∧
      m.record?.bind Event.rounding? = m.literal?.bind Literal.rounding? ∧
      m.record?.bind Event.ignored? = m.ignored? := by
  obtain ⟨task, waiting, p⟩ := m
  rcases task with call | ⟨kind, next⟩ | ⟨level, left⟩ | value | _ | fault
  case call =>
    rw [record?]
    rcases (⟨.call call, waiting, p⟩ : Moment).literal? with _ | ⟨_ | rounded, position⟩ <;>
      exact ⟨rfl, rfl, rfl⟩
  case eat =>
    rw [record?]
    rcases (⟨.eat kind next, waiting, p⟩ : Moment).pulled? with _ | ⟨token | x, position⟩ <;>
      exact ⟨rfl, rfl, rfl⟩
  case give =>
    rw [record?]
    rcases waiting with _ | ⟨level | ⟨level, op, left, place⟩ | _ | _, waiting⟩
    case cons.rest =>
      by_cases hrest : p.settings.trailing = .ignored ∧ p.lookahead ≠ .endOfInput
      · rw [ignored?, if_pos hrest]
        exact ⟨rfl, rfl, rfl⟩
      · rw [ignored?, if_neg hrest]
        exact ⟨rfl, rfl, rfl⟩
    all_goals exact ⟨rfl, rfl, rfl⟩
  all_goals exact ⟨rfl, rfl, rfl⟩

/-! ## What is left over -/

/-- No whole text is being parsed: only an expression of it is, or a part of one. -/
def Moment.Above (m : Moment) : Prop := .rest ∉ m.waiting ∧ m.task ≠ .call .parse

variable {settings : Settings} {text : String} {m m' last : Moment} {passed : List Moment}
  {p q : Parser} {fault : Fault} {position : Nat}

/-- A call for an operand is none for a whole text. -/
theorem Call.operand_ne_parse (level : Level) : Task.call (operand level) ≠ .call .parse := by
  cases level <;> exact fun h => by cases h

/-- Nor is a task for a value, if none is that follows it. -/
theorem Task.ofExcept_ne {value : Except Fault Binary64} {next : Binary64 → Task} {call : Call}
    (h : ∀ v, next v ≠ .call call) : Task.ofExcept value next ≠ .call call := by
  rcases value with fault | v
  · exact Task.noConfusion
  · exact h v

/-- What is part of an expression leads to nothing else. -/
theorem Step.above (h : m.Above) (hstep : Step m m') : m'.Above := by
  obtain ⟨hwaiting, htask⟩ := h
  cases hstep with
  | enter call waiting q =>
    rcases call with kind | _ | level | _
    case factor =>
      rw [Call.enter]
      rcases q.lookahead with literal | op | _ | _ | _
      case integer =>
        exact ⟨hwaiting, Task.ofExcept_ne fun _ => Task.noConfusion⟩
      case leftParen =>
        dsimp only
        split <;> exact ⟨hwaiting, Task.noConfusion⟩
      all_goals exact ⟨hwaiting, Task.noConfusion⟩
    case chain =>
      refine ⟨?_, Call.operand_ne_parse level⟩
      simpa [Call.enter] using hwaiting
    case parse => exact absurd rfl htask
    case eat => exact ⟨hwaiting, Task.noConfusion⟩
  | consume next waiting q hfront =>
    rcases next with _ | value | ⟨level, op, left, place⟩ | _
    case operand =>
      refine ⟨?_, Call.operand_ne_parse level⟩
      simpa [Next.follow] using hwaiting
    case inside =>
      refine ⟨?_, fun h => by cases h⟩
      simpa [Next.follow] using hwaiting
    all_goals exact ⟨hwaiting, Task.noConfusion⟩
  | stray next waiting q hfront => exact ⟨hwaiting, Task.noConfusion⟩
  | misplaced next waiting q hkind => exact ⟨hwaiting, Task.noConfusion⟩
  | finish left waiting q hop => exact ⟨hwaiting, Task.noConfusion⟩
  | round left waiting q hop => exact ⟨hwaiting, Task.noConfusion⟩
  | resume frame value waiting q =>
    obtain ⟨hframe, hothers⟩ := not_or.1 (mt List.mem_cons.2 hwaiting)
    rcases frame with level | ⟨level, op, left, place⟩ | _ | _
    case right =>
      exact ⟨hothers, Task.ofExcept_ne fun _ => Task.noConfusion⟩
    case rest => exact absurd rfl hframe
    all_goals exact ⟨hothers, Task.noConfusion⟩

/-- On the way through an expression nothing is said to be left over. -/
theorem Passage.ignored_eq (h : Passage m passed last) (habove : m.Above) :
    passed.filterMap Moment.ignored? = [] := by
  induction h with
  | nil => rfl
  | @cons m₁ m₂ _ passed hstep _ ih =>
    have hnone : m₁.ignored? = none := by
      obtain ⟨task, waiting, q⟩ := m₁
      rcases task with call | ⟨kind, next⟩ | ⟨level, left⟩ | value | _ | fault
      case give =>
        rcases waiting with _ | ⟨level | ⟨level, op, left, place⟩ | _ | _, waiting⟩
        case cons.rest => exact absurd List.mem_cons_self habove.1
        all_goals rfl
      all_goals rfl
    rw [List.filterMap_cons_none hnone]
    exact ih ((step_cases hstep).above habove)

/-- The places that a parser has recorded, from which on tokens are left over. -/
def ignoreds (p : Parser) : List Nat := p.events.toList.filterMap Event.ignored?

/-- The last moment has the parser that the rule leaves behind. -/
theorem Moment.parser_of_valued {rule : Rule Binary64}
    (h : m.result? = some (Call.valued rule p)) : m.parser = ending (rule p) := by
  rw [Moment.parser_of_result h, Call.valued_eq]
  rcases rule p with ⟨value, q⟩ | ⟨fault, q⟩ <;> rfl

/-- On the way through an expression no tokens are recorded as left over. -/
theorem Available.ignoreds_expr (h : Available settings text p) :
    (ending (expr p)).ignoreds = p.ignoreds := by
  obtain ⟨passed, last, hpassage, hresult, _, _⟩ := h.exists_passage (.chain .sum)
  have hlast : last.parser = ending (expr p) := Moment.parser_of_valued hresult
  have habove : (Call.begin (.chain .sum) p).Above := ⟨List.not_mem_nil, fun h => by cases h⟩
  have hnone : (passed.filterMap Moment.record?).filterMap Event.ignored? = [] := by
    rw [List.filterMap_filterMap, ← hpassage.ignored_eq habove]
    congr 1
    funext m
    exact m.views_record?.2.2
  rw [← hlast, ignoreds, hpassage.events_eq, List.filterMap_append, hnone, List.append_nil]
  rfl

/-- The place from which on tokens are left over and ignored, when a whole text has been parsed. -/
def ignoredFrom (trailing : Trailing) : EStateM.Result Fault Parser Binary64 → List Nat
  | .ok _ q => if trailing = .ignored ∧ q.lookahead ≠ .endOfInput then [q.position] else []
  | .error _ _ => []

/-- What follows an expression is recorded if it is ignored, and if it is not the end. -/
theorem ignoreds_settle (value : Binary64) (q : Parser) :
    (ending (settle value q)).ignoreds =
      q.ignoreds ++ ignoredFrom q.settings.trailing (settle value q) := by
  rw [settle]
  rcases q.settings.trailing with _ | _
  · by_cases hend : q.lookahead = .endOfInput
    · simp [ending, ignoredFrom, hend]
    · simp [ending, ignoredFrom, hend, ignoreds, recorded, Event.ignored?]
  · dsimp only
    rcases eat_cases .endOfInput q with ⟨token, _, _, heat⟩ | ⟨x, _, _, heat⟩ | ⟨_, heat⟩
    · rw [heat]
      simp [andThen, ending, ignoredFrom, looking, ignoreds, Event.ignored?]
    · rw [heat]
      exact (List.append_nil _).symm
    · rw [heat]
      exact (List.append_nil _).symm

/-- **Tokens are said to be left over where they are**, once, and never elsewhere. -/
theorem Available.ignoreds_parse (h : Available settings text p) :
    (ending (parse p)).ignoreds = p.ignoreds ++ ignoredFrom settings.trailing (parse p) := by
  obtain ⟨n, hreached⟩ := h.reached
  obtain ⟨_, hpulled⟩ := pulls_expr settings _ p hreached.ready
  rw [parse_eq, ← h.ignoreds_expr]
  rcases hexpr : expr p with ⟨value, q⟩ | ⟨fault, q⟩
  · rw [hexpr] at hpulled
    rw [← hpulled.ready_of_ok.settings_eq]
    exact ignoreds_settle value q
  · exact (List.append_nil _).symm

end Parser

/-! ## Faithfulness -/

/-- The record of an evaluation says what has happened at the moments that the parser of the text,
    from `start` on, has passed through. -/
structure Evaluation.Faithful (evaluation : Evaluation) (settings : Settings) (text : String)
    (start : Parser) (passed : List Parser.Moment) : Prop where
  /-- The outcome is what the parser has come to. -/
  outcome_eq : evaluation.outcome = outcomeOf (Parser.parse start)
  /-- First the text is announced, and then its first token; behind them comes what is written on the
      way, and the outcome comes last. -/
  log_eq : evaluation.log =
    .started text :: .read start.lookahead start.position ::
      passed.filterMap Parser.Moment.record? ++ [.ofOutcome text evaluation.outcome]
  /-- The pieces that are handed out are those of so many steps through the text. -/
  pulled_eq : (Cursor.ofText text).front :: passed.filterMap Parser.Moment.pulled? =
    (Cursor.ofText text).steps evaluation.pulls
  /-- There the cursor is left. -/
  cursor_eq : Evaluation.cursor settings text = (Cursor.ofText text).skip evaluation.pulls
  /-- The tokens among them are recorded as read, with their places. -/
  reads_eq : evaluation.log.filterMap Event.read? =
    ((Cursor.ofText text).steps evaluation.pulls).filterMap Placed.read?
  /-- Operators are recorded where they are applied, with their operands. -/
  applications_eq : evaluation.log.filterMap Event.application? =
    passed.filterMap Parser.Moment.application?
  /-- The place of an operator is the one at which it is written. -/
  operator_reads : ∀ m ∈ passed, ∀ a, m.application? = some a →
    ReadsAt text a.position (.token (.operator a.op))
  /-- Literals are recorded where they are met, if they are rounded. -/
  roundings_eq : evaluation.log.filterMap Event.rounding? =
    (passed.filterMap Parser.Moment.literal?).filterMap Literal.rounding?
  /-- A literal is rounded if the number that its digits write does not fit into 64 bits. -/
  literal_digits : ∀ m ∈ passed, ∀ literal position, m.literal? = some (literal, position) →
    ∃ s : Span text.toList, s.start = position ∧ (∀ c ∈ s.run, c.isDigit) ∧
      (∀ c ∈ s.before.getLast?, ¬ c.isDigit) ∧ (∀ c ∈ s.behind.head?, ¬ c.isDigit) ∧
      literal = .ofDigits s.run ∧
      Literal.rounding? (literal, position) =
        if Text.ofDigits s.run < 2 ^ 64 then none else some (literal.toBinary64, position)
  /-- Both are what the machine records when it runs the code of the outline, until it stops. -/
  computations_eq : evaluation.log.filter Event.isComputation =
    records (Outline.ofText settings text).code []
  /-- Tokens are said to be ignored where they are left over. -/
  ignored_eq : evaluation.log.filterMap Event.ignored? =
    Parser.ignoredFrom settings.trailing (Parser.parse start)
  /-- Where there is a value, operators have been recorded in the post-order of the expression, and
      they are those that are written in it. -/
  of_ok : ∀ value, evaluation.outcome = .ok value →
    ∃ e rest, Takes settings.maxDepth text e rest ∧ e.eval = .ok value ∧
      (evaluation.log.filterMap Event.application?).map Application.operator = e.operators ∧
      e.operators.Perm (e.placed.filterMap Placed.operator?)
  /-- Where an operator has an arithmetic fault, it is the last one recorded. -/
  of_error : ∀ fault op, evaluation.outcome = .error fault → fault.cause.IsArithmetic →
    ReadsAt text fault.position (.token (.operator op)) →
    ∃ a, (evaluation.log.filterMap Event.application?).getLast? = some a ∧
      a.operator = (op, fault.position) ∧ a.result = .error fault

namespace Parser

variable {settings : Settings} {text : String} {begun : Parser} {last : Moment}
  {passed : List Moment} {fault : Fault}

/-- The record of a text is put together from what is written on the way. -/
theorem log_of_passage (hstart : start settings (Cursor.ofText text) = .ok begun)
    (hpassage : Passage (Call.begin .parse begun) passed last)
    (hresult : last.result? = some (Call.run .parse begun)) :
    (Evaluation.run settings text).log = .started text ::
      .read begun.lookahead begun.position :: passed.filterMap Moment.record? ++
        [.ofOutcome text (Evaluation.run settings text).outcome] := by
  have hlast : last.parser = ending (parse begun) := Moment.parser_of_valued hresult
  have hevents : last.parser.events.toList =
      .read begun.lookahead begun.position :: passed.filterMap Moment.record? := by
    rw [hpassage.events_eq, Call.begin, events_of_start hstart]
    rfl
  rw [Evaluation.log_of_start hstart, ← hlast, hevents]

/-- What a view picks out of the record is what it picks out of what is written on the way, if it
    passes over the rest. -/
theorem view_log (hstart : start settings (Cursor.ofText text) = .ok begun)
    (hpassage : Passage (Call.begin .parse begun) passed last)
    (hresult : last.result? = some (Call.run .parse begun)) {β : Type} {view : Event → Option β}
    (hstarted : view (.started text) = none)
    (hread : view (.read begun.lookahead begun.position) = none)
    (houtcome : ∀ outcome, view (.ofOutcome text outcome) = none) :
    (Evaluation.run settings text).log.filterMap view =
      passed.filterMap fun m => m.record?.bind view := by
  rw [log_of_passage hstart hpassage hresult, List.cons_append, List.cons_append,
    List.filterMap_cons_none hstarted, List.filterMap_cons_none hread, List.filterMap_append,
    List.filterMap_cons_none (houtcome _), List.filterMap_filterMap]
  exact List.append_nil _

/-- The operators that are recorded are those that are applied on the way. -/
theorem applications_log (hstart : start settings (Cursor.ofText text) = .ok begun)
    (hpassage : Passage (Call.begin .parse begun) passed last)
    (hresult : last.result? = some (Call.run .parse begun)) :
    (Evaluation.run settings text).log.filterMap Event.application? =
      passed.filterMap Moment.application? := by
  rw [view_log hstart hpassage hresult rfl rfl fun outcome => by cases outcome <;> rfl]
  congr 1
  funext m
  exact m.views_record?.1

/-- The literals that are recorded are those that are met on the way and have been rounded. -/
theorem roundings_log (hstart : start settings (Cursor.ofText text) = .ok begun)
    (hpassage : Passage (Call.begin .parse begun) passed last)
    (hresult : last.result? = some (Call.run .parse begun)) :
    (Evaluation.run settings text).log.filterMap Event.rounding? =
      (passed.filterMap Moment.literal?).filterMap Literal.rounding? := by
  rw [view_log hstart hpassage hresult rfl rfl fun outcome => by cases outcome <;> rfl,
    List.filterMap_filterMap]
  congr 1
  funext m
  exact m.views_record?.2.1

/-- What is recorded as ignored is left over. -/
theorem ignoreds_log (hstart : start settings (Cursor.ofText text) = .ok begun)
    (hpassage : Passage (Call.begin .parse begun) passed last)
    (hresult : last.result? = some (Call.run .parse begun)) :
    (Evaluation.run settings text).log.filterMap Event.ignored? =
      ignoredFrom settings.trailing (parse begun) := by
  have hlast : last.parser = ending (parse begun) := Moment.parser_of_valued hresult
  have hignoreds := (available_of_start (k := 0) hstart).ignoreds_parse
  rw [← hlast, ignoreds, hpassage.events_eq, List.filterMap_append] at hignoreds
  rw [view_log hstart hpassage hresult rfl rfl fun outcome => by cases outcome <;> rfl,
    ← List.filterMap_filterMap]
  exact List.append_cancel_left hignoreds

/-- That the value may also be missing changes nothing of the steps. -/
theorem pulls_run_parse (p : Parser) : pulls (Call.run .parse p) = pulls (parse p) := by
  show pulls (Call.valued parse p) = _
  rw [Call.valued_eq]
  rcases parse p with ⟨value, q⟩ | ⟨fault, q⟩ <;> rfl

/-- Which literals are rounded. -/
theorem Regular.literal_digits {depth position : Nat} {m : Moment} {literal : Literal}
    (h : Regular settings text depth m) (hliteral : m.literal? = some (literal, position)) :
    ∃ s : Span text.toList, s.start = position ∧ (∀ c ∈ s.run, c.isDigit) ∧
      (∀ c ∈ s.before.getLast?, ¬ c.isDigit) ∧ (∀ c ∈ s.behind.head?, ¬ c.isDigit) ∧
      literal = .ofDigits s.run ∧
      Literal.rounding? (literal, position) =
        if Text.ofDigits s.run < 2 ^ 64 then none else some (literal.toBinary64, position) := by
  obtain ⟨s, hstart, hrun, hdigits, hbefore, hbehind, rfl⟩ :=
    (h.readsAt_literal hliteral).exists_digits
  refine ⟨s, hstart, hdigits, hbefore, hbehind, rfl, ?_⟩
  by_cases hlt : Text.ofDigits s.run < UInt64.size
  · have hfits : Text.ofDigits s.run < 2 ^ 64 := hlt
    rw [if_pos hfits, Literal.ofDigits_of_lt hrun hdigits hlt, Literal.rounding?]
  · have hlarge : ¬ Text.ofDigits s.run < 2 ^ 64 := hlt
    rw [if_neg hlarge, Literal.ofDigits_of_ge hrun hdigits (Nat.le_of_not_lt hlt),
      Literal.rounding?, Literal.toBinary64]

/-- Where the fault is that of an operator, this operator has been applied last. -/
theorem Passage.getLast?_application {call : Call} {op : Operator} {waiting : List Frame}
    {p q : Parser} (h : Passage (call.begin p) passed ⟨.fail fault, waiting, q⟩)
    (hregular : ∀ m ∈ passed, Regular settings text p.depth m) (hfault : fault.cause.IsArithmetic)
    (hop : ReadsAt text fault.position (.token (.operator op))) :
    ∃ a, (passed.filterMap Moment.application?).getLast? = some a ∧
      a.operator = (op, fault.position) ∧ a.result = .error fault := by
  obtain ⟨front, m, rfl, hstep⟩ := h.exists_before_last (h.ne_nil rfl)
  have hm := hregular m (List.mem_append_right _ List.mem_cons_self)
  rcases (step_cases hstep).failsWith hfault with
    ⟨literal, position, hliteral, hchecked⟩ | ⟨a, ha, hresult⟩
  · -- a literal does not begin where an operator does
    cases Binary64.fault_of_checked hchecked
    cases (hm.readsAt_literal hliteral).unique hop
  · obtain ⟨hposition, _⟩ := Operator.fault_of_apply hresult
    have hreads := hm.readsAt_application ha
    rw [← hposition] at hreads
    cases hreads.unique hop
    refine ⟨a, ?_, ?_, hresult⟩
    · rw [List.filterMap_append, List.filterMap_cons_some ha, List.filterMap_nil,
        List.getLast?_concat]
    · rw [Application.operator, hposition]

/-- The pieces that are handed out are those of the steps that are counted: one for the first token,
    and the others on the way. -/
theorem pulled_eq_steps (hstart : start settings (Cursor.ofText text) = .ok begun)
    (hpassage : Passage (Call.begin .parse begun) passed last)
    (hresult : last.result? = some (Call.run .parse begun)) :
    (Cursor.ofText text).front :: passed.filterMap Moment.pulled? =
      (Cursor.ofText text).steps (Evaluation.run settings text).pulls := by
  have hcursor : begun.cursor = (Cursor.ofText text).next.2 :=
    (reached_of_start (k := 0) hstart).1.cursor_eq
  have hreads : begun.reads.length = 1 := by
    rw [reads, events_of_start hstart]
    rfl
  have hcount : (Evaluation.run settings text).pulls =
      (passed.filterMap Moment.pulled?).length + 1 := by
    rw [(Evaluation.run_eq_course settings text).2.2.1, Evaluation.course_of_start hstart,
      ← pulls_run_parse, hpassage.pulls_eq hresult, hreads, Nat.add_comm]
  rw [hcount, Cursor.steps, ← hcursor]
  exact congrArg _ hpassage.cursor_eq.2

/-- **The record of a text that has a parser is faithful.** -/
theorem faithful_of_start (hstart : start settings (Cursor.ofText text) = .ok begun)
    (hpassage : Passage (Call.begin .parse begun) passed last)
    (hresult : last.result? = some (Call.run .parse begun))
    (hregular : ∀ m ∈ passed, Regular settings text begun.depth m) :
    (Evaluation.run settings text).Faithful settings text begun passed where
  outcome_eq := by
    rw [(Evaluation.run_eq_course settings text).1, Evaluation.course_of_start hstart]
  log_eq := log_of_passage hstart hpassage hresult
  pulled_eq := pulled_eq_steps hstart hpassage hresult
  cursor_eq := (Evaluation.cursor_eq_skip settings text).1
  reads_eq := (Evaluation.cursor_eq_skip settings text).2
  applications_eq := applications_log hstart hpassage hresult
  operator_reads := fun m hm a => (hregular m hm).readsAt_application
  roundings_eq := roundings_log hstart hpassage hresult
  literal_digits := fun m hm literal position => (hregular m hm).literal_digits
  computations_eq := Evaluation.computations_run settings text
  ignored_eq := ignoreds_log hstart hpassage hresult
  of_ok := fun value hvalue => Evaluation.exists_takes_of_ok hvalue
  of_error := by
    intro fault op hfault harithmetic hop
    rw [(Evaluation.run_eq_course settings text).1, Evaluation.course_of_start hstart] at hfault
    rw [applications_log hstart hpassage hresult]
    rcases hparse : parse begun with ⟨value, q⟩ | ⟨fault', q⟩
    · rw [hparse] at hfault
      cases hfault
    · rw [hparse] at hfault
      cases hfault
      have hrun : Call.run .parse begun = .error fault q := by
        show Call.valued parse begun = _
        rw [Call.valued_eq, hparse]
        rfl
      rw [hrun] at hresult
      obtain ⟨waiting, rfl⟩ := Moment.eq_fail_of_result hresult
      exact hpassage.getLast?_application hregular harithmetic hop

end Parser

/-- **The record is faithful.**  What stands in the log are the texts of events, each at its level of
    detail, and only these events are recorded like this.  Of a text that begins with a stray only the
    announcement is recorded.  Of any other text, take the parser that stands in front of its first
    token, and the moments that it passes through.  The record begins with the announcement, it ends
    with the outcome, and what stands between is what has happened at these moments, in order: all
    tokens that have been handed out, all literals that were met and do not fit into 64 bits, all
    operators that have been applied, with their operands, and the place from which on tokens are left
    over and ignored.  Where there is a value, operators stand in the post-order of the expression
    that has it; where one of them has failed, it is the last. -/
theorem log_is_faithful (settings : Settings) (text : String) :
    (∀ events, List.Forall₂ Event.Written events
        ((Evaluation.run settings text).log.map Event.record) ↔
      events = (Evaluation.run settings text).log) ∧
    match (Cursor.ofText text).front.reading with
    | .stray x =>
      (Evaluation.run settings text).outcome =
          .error ⟨.strayCharacter x, (Cursor.ofText text).front.position⟩ ∧
        (Evaluation.run settings text).log = [.started text]
    | .token _ =>
      ∃ begun passed last, Parser.start settings (Cursor.ofText text) = .ok begun ∧
        Parser.Passage (Parser.Call.begin .parse begun) passed last ∧
        last.result? = some (Parser.Call.run .parse begun) ∧
        (Evaluation.run settings text).Faithful settings text begun passed := by
  refine ⟨fun events => Event.forall₂_written_iff, ?_⟩
  have hstart := Parser.start_eq settings (Cursor.ofText text)
  rcases hfront : (Cursor.ofText text).front.reading with token | x
  · rw [Parser.advance_of_token hfront] at hstart
    have havailable := Parser.available_of_start (k := 0) hstart
    obtain ⟨passed, last, hpassage, hresult, hregular, _⟩ := havailable.exists_passage .parse
    exact ⟨_, passed, last, hstart, hpassage, hresult,
      Parser.faithful_of_start hstart hpassage hresult hregular⟩
  · rw [Parser.advance_of_stray hfront] at hstart
    have hrun : Evaluation.run settings text =
        ⟨.error ⟨.strayCharacter x, (Cursor.ofText text).front.position⟩, [.started text]⟩ := by
      rw [Evaluation.run, hstart]
      rfl
    rw [hrun]
    exact ⟨rfl, rfl⟩

-- the parenthesis is read before the sum is applied, and left over behind it
example : (Evaluation.run ⟨0, .ignored⟩ "1+2)").log.map Event.message =
    ["evaluating \"1+2)\"", "lexed Integer(Exact(1)) at 0", "lexed Plus at 1",
      "lexed Integer(Exact(2)) at 2", "lexed RParen at 3", "1 Add 2 at 1",
      "ignoring input after position 3", "\"1+2)\" = 3"] := by
  decide +kernel

end Calculator
