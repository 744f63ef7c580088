/-
  What a fault leaves behind.

  Problem: a fault does not undo what was read before it, and the parser that is left can be asked
  again.  Show that the fault and the parser agree on where things went wrong, through however many
  levels of terms and parentheses the fault has come, and whatever has failed before.

  1. **Agreement** — `Agrees`: what each cause says of the lookahead and its place.  A token that is
     misplaced or too deep is still the lookahead, and so is a literal that is too large; a stray
     stands behind the lookahead, and is the last thing that was handed out; an operator stands
     before it, since both of its operands are consumed (`Operator.Failed`).

  2. **The crux (`Regular.agrees`)** — a fault is found in one step, and the frames that wait have
     no part in it.  So the moment before the last one is all that has to be looked at, and what is
     held at every moment says enough of it: the operator behind a right operand stands before the
     lookahead.

  3. **Result (`fault_agrees_with_state`)** — of all calls that fail, after any others.
-/
import Calculator.Proofs.Bookkeeping

namespace Calculator

/-! ## Agreement -/

/-- The operator at the place of the fault was applied last, to operands that have been consumed,
    and this has come of it. -/
structure Operator.Failed (text : String) (fault : Fault) (q : Parser) (op : Operator) : Prop where
  reads : ReadsAt text fault.position (.token (.operator op))
  applied : ∃ left right, op.apply left right fault.position = .error fault ∧
    q.events.back? = some (.applied op left right fault.position)
  consumed : fault.position < q.position

namespace Parser

/-- What a fault says of the parser that it leaves behind is so. -/
def Agrees (settings : Settings) (text : String) (fault : Fault) (q : Parser) : Prop :=
  match fault.cause with
  | .unexpected _ found => q.lookahead.kind = found ∧ q.position = fault.position
  | .nestedTooDeep limit =>
    q.lookahead = .leftParen ∧ q.position = fault.position ∧ limit = settings.maxDepth ∧
      q.depth = limit
  | .strayCharacter c =>
    ∃ n, ((Cursor.ofText text).skip n).front = ⟨.stray c, fault.position⟩ ∧
      q.cursor = (Cursor.ofText text).skip (n + 1) ∧
      (Cursor.ofText text).lastRead (n + 1) = some (q.lookahead, q.position) ∧
      q.position < fault.position
  | .divisionByZero => Operator.Failed text fault q .div
  | .overflow =>
    (∃ op, Operator.Failed text fault q op) ∨
      ∃ literal, q.lookahead = .integer literal ∧ q.position = fault.position ∧
        literal.toBinary64.isFinite = false

/-! ## The step that fails -/

variable {settings : Settings} {text : String} {depth : Nat} {fault : Fault} {p q : Parser}
  {waiting : List Frame} {m : Moment}

/-- The token that is misplaced has not been consumed. -/
theorem agrees_misplaced (settings : Settings) (text : String) (expected : TokenKind)
    (p : Parser) : Agrees settings text (p.misplaced expected) p := ⟨rfl, rfl⟩

/-- A task for a value fails only with the fault that it has instead. -/
theorem Task.eq_error_of_ofExcept {value : Except Fault Binary64} {next : Binary64 → Task}
    (h : Task.ofExcept value next = .fail fault) (hnext : ∀ v, next v ≠ .fail fault) :
    value = .error fault := by
  rcases value with fault' | v
  · cases h
    rfl
  · exact absurd h (hnext v)

/-- A factor that fails at once. -/
theorem Held.agrees_enter (h : Held settings text depth waiting p) {call : Call}
    {waiting' : List Frame} (hfail : call.enter waiting p = ⟨.fail fault, waiting', q⟩) :
    Agrees settings text fault q := by
  obtain ⟨n, hreached⟩ := h.reached
  rcases call with kind | _ | level | _
  case factor =>
    rw [Call.enter] at hfail
    rcases hlook : p.lookahead with literal | op | _ | _ | _
    case integer =>
      simp only [hlook, Moment.mk.injEq] at hfail
      obtain ⟨hvalue, -, rfl⟩ := hfail
      have hchecked := Task.eq_error_of_ofExcept hvalue fun _ => by simp
      obtain rfl := Binary64.fault_of_checked hchecked
      refine .inr ⟨literal, ?_, ?_, Binary64.isFinite_of_checked hchecked⟩
      · cases literal <;> exact hlook
      · cases literal <;> rfl
    case leftParen =>
      simp only [hlook] at hfail
      split at hfail
      · cases hfail
      · next hlimit =>
        cases hfail
        rw [hreached.settings_eq] at hlimit ⊢
        exact ⟨hlook, rfl, rfl, Nat.le_antisymm h.depth_le (Nat.le_of_not_lt hlimit)⟩
    all_goals
      simp only [hlook] at hfail
      cases hfail
      exact agrees_misplaced settings text .integer p
  all_goals cases hfail

/-- An operator that fails. -/
theorem Held.agrees_resume {frame : Frame} (h : Held settings text depth (frame :: waiting) p)
    {value : Binary64} {waiting' : List Frame}
    (hfail : frame.resume value waiting p = ⟨.fail fault, waiting', q⟩) :
    Agrees settings text fault q := by
  rcases frame with level | ⟨level, op, left, place⟩ | _ | _
  case right =>
    simp only [Frame.resume, Moment.mk.injEq] at hfail
    obtain ⟨hvalue, -, rfl⟩ := hfail
    have happly := Task.eq_error_of_ofExcept hvalue fun _ => by simp
    obtain ⟨hlt, hreads⟩ := (List.forall_mem_cons.1 h.begun).1
    obtain ⟨cause, position⟩ := fault
    obtain ⟨rfl, hcause⟩ := Operator.fault_of_apply happly
    have hfailed : Operator.Failed text ⟨cause, position⟩
        (p.recorded (.applied op left value position)) op :=
      ⟨hreads, ⟨left, value, happly, Array.back?_push⟩, hlt⟩
    rcases hcause with rfl | rfl
    · obtain rfl := Operator.eq_div_of_apply happly rfl
      exact hfailed
    · exact .inl ⟨op, hfailed⟩
  case rest =>
    rw [Frame.resume] at hfail
    rcases htrailing : p.settings.trailing with _ | _
    · simp only [htrailing] at hfail
      cases hfail
    · simp only [htrailing] at hfail
      cases hfail
  all_goals cases hfail

/-- **The step that fails** comes to a fault and a parser that agree. -/
theorem Regular.agrees (h : Regular settings text depth m)
    (hstep : Step m ⟨.fail fault, waiting, q⟩) : Agrees settings text fault q := by
  have hheld := h.held
  generalize hm' : (⟨.fail fault, waiting, q⟩ : Moment) = m' at hstep
  cases hstep with
  | enter call waiting' p => exact hheld.agrees_enter hm'.symm
  | consume next waiting' p hfront => cases next <;> cases hm'
  | stray next waiting' p hfront =>
    cases hm'
    obtain ⟨n, hreached⟩ := hheld.reached
    -- a stray is handed out only where the input has not ended
    have hlook : p.lookahead ≠ .endOfInput := by
      intro hend
      rw [hreached.ready.front_of_end hend] at hfront
      cases hfront
    have hpassed := hreached.passing hfront
    refine ⟨n, ?_, hpassed.cursor_eq, hpassed.lookahead_eq, hreached.position_lt_front hlook⟩
    rw [← hreached.cursor_eq, ← hfront]
  | misplaced next waiting' p hkind =>
    cases hm'
    exact agrees_misplaced settings text _ _
  | finish left waiting' p hop => cases hm'
  | round left waiting' p hop => cases hm'
  | resume frame value waiting' p => exact hheld.agrees_resume hm'.symm

/-! ## Calls -/

/-- Where a call has failed, the fault is the task. -/
theorem Moment.eq_fail_of_result (h : m.result? = some (.error fault q)) :
    ∃ waiting, m = ⟨.fail fault, waiting, q⟩ := by
  rcases Moment.result_cases h with ⟨_, _, _, hresult⟩ | ⟨_, _, hresult⟩ |
    ⟨fault', waiting, q', hm, hresult⟩
  · cases hresult
  · cases hresult
  · cases hresult
    exact ⟨waiting, hm⟩

/-- **A fault and the parser that it leaves behind agree.**  Take a parser that was made behind any
    number of steps through a text, after any calls.  Whatever it is asked for then, if this fails,
    the parser is left as the fault says.  Where it fails to consume a token because the token is of
    another kind, the parser is left as it was. -/
theorem fault_agrees_with_state {settings : Settings} {text : String} {k : Nat} {start : Parser}
    (hstart : Parser.start settings ((Cursor.ofText text).skip k) = .ok start)
    (calls : List Call) :
    (∀ call fault q, Call.run call (after calls start) = .error fault q →
      Agrees settings text fault q) ∧
    ∀ kind, (after calls start).lookahead.kind ≠ kind →
      Parser.eat kind (after calls start) =
        .error ((after calls start).misplaced kind) (after calls start) := by
  have havailable := (available_of_start hstart).after calls
  refine ⟨fun call fault q hfault => ?_, fun kind => eat_of_kind_ne⟩
  obtain ⟨last, hlast, hresult, _⟩ := havailable.exists_course call
  rw [hfault] at hresult
  obtain ⟨waiting, rfl⟩ := Moment.eq_fail_of_result hresult
  -- the call has been made before it has failed, and so there is a moment before the last one
  rcases Relation.ReflTransGen.cases_tail hlast with hbegin | ⟨m, hm, hstep⟩
  · cases hbegin
  · exact ((havailable.regular call).leads hm).1.agrees (step_cases hstep)

/-- A parenthesis is asked for before a stray, and once more behind it; then a division by zero is
    found, in front of the lookahead. -/
theorem quotient_behind_stray_agrees :
    ∃ start, Parser.start {} (Cursor.ofText "(?2/0)") = .ok start ∧
      ∃ q, Call.run (.chain .sum) (after [.parse, .eat .leftParen] start) =
          .error ⟨.divisionByZero, 3⟩ q ∧
        q.position = 5 ∧ Agrees {} "(?2/0)" ⟨.divisionByZero, 3⟩ q := by
  have hstart : Parser.start {} ((Cursor.ofText "(?2/0)").skip 0) =
      .ok ⟨{}, (Cursor.ofText "(?2/0)").skip 1, .leftParen, 0, 0, #[.read .leftParen 0]⟩ := by
    decide +kernel
  have hagrees := (fault_agrees_with_state hstart [.parse, .eat .leftParen]).1 (.chain .sum)
  generalize hp : after [.parse, .eat .leftParen] _ = p at hagrees
  have houtcome : outcomeOf (Call.run (.chain .sum) p) = .error ⟨.divisionByZero, 3⟩ := by
    rw [← hp]
    decide +kernel
  have hposition : (ending (Call.run (.chain .sum) p)).position = 5 := by
    rw [← hp]
    decide +kernel
  rcases hrun : Call.run (.chain .sum) p with ⟨value, q⟩ | ⟨fault, q⟩
  · rw [hrun] at houtcome
    cases houtcome
  · rw [hrun] at houtcome hposition
    cases houtcome
    exact ⟨_, hstart, q, by rw [hp]; exact hrun, hposition, hagrees _ q hrun⟩

end Parser

end Calculator
