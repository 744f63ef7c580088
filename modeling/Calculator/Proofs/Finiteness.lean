/-
  Nothing but finite numbers.

  Problem: the numbers know two infinities and a `nan`, and operators are defined on these too.  Show
  that none of them is ever computed with: that all numbers that a call has in hand are finite, at
  whatever moment, so that arithmetic faults are the only trace of the others.

  1. **Numbers in hand** — `Moment.numbers`: what a task or a frame that waits has come to.

  2. **The crux (`Step.finite`)** — a number is taken in hand behind a check, and in no other way.

  3. **Applications (`Application.Proper`)** — with both operands finite, an operator refuses a zero,
     overflows where its exact result lies beyond the range, and comes to a number otherwise.

  4. **Result (`finite_throughout`)** — of all calls, in all states that a parser can come to.
-/
import Calculator.Proofs.ExactResults
import Calculator.Proofs.Passages

namespace Calculator

/-! ## Applications -/

/-- The exact result lies beyond the range. -/
def Application.Overflows (a : Application) : Prop :=
  ¬ a.op.Refuses a.right ∧ 2 ^ 1024 - 2 ^ 970 ≤ |a.op.exact a.left.toRat a.right.toRat|

/-- An operator that is applied to finite numbers, and what comes of it. -/
structure Application.Proper (a : Application) : Prop where
  left_finite : a.left.isFinite = true
  right_finite : a.right.isFinite = true
  result_eq : a.result =
    if a.op.Refuses a.right then .error ⟨.divisionByZero, a.position⟩
    else (a.op.compute a.left a.right).checked a.position
  /-- What is checked is a number or an infinity. -/
  compute_ne_nan : ¬ a.op.Refuses a.right → a.op.compute a.left a.right ≠ .nan
  /-- The divisor is zero, or the exact result lies beyond the range. -/
  result_eq_error_iff : ∀ fault, a.result = .error fault ↔
    a.op.Refuses a.right ∧ fault = ⟨.divisionByZero, a.position⟩ ∨
      a.Overflows ∧ fault = ⟨.overflow, a.position⟩

/-- It is enough that the operands are finite. -/
theorem Application.proper {a : Application} (hleft : a.left.isFinite = true)
    (hright : a.right.isFinite = true) : a.Proper := by
  refine ⟨hleft, hright, Operator.apply_eq a.op a.left a.right a.position,
    fun hrefuses => (Operator.isRounded_compute hleft hright hrefuses).ne_nan, fun fault => ?_⟩
  rw [result, Operator.apply_eq_error_iff hleft hright, Overflows, and_assoc]

namespace Parser

/-! ## Numbers in hand -/

/-- The number that is kept for what is done behind a token. -/
def Next.numbers : Next → List Binary64
  | .give value => [value]
  | .operand _ _ left _ => [left]
  | .nothing | .inside => []

/-- The number that a task has come to. -/
def Task.numbers : Task → List Binary64
  | .eat _ next => next.numbers
  | .goOn _ value | .give value => [value]
  | .call _ | .done | .fail _ => []

/-- The number that a frame keeps while it waits. -/
def Frame.numbers : Frame → List Binary64
  | .right _ _ left _ => [left]
  | .first _ | .inside | .rest => []

/-- The numbers in hand. -/
def Moment.numbers (m : Moment) : List Binary64 :=
  m.task.numbers ++ m.waiting.flatMap Frame.numbers

/-- All numbers in hand are finite. -/
def Moment.Finite (m : Moment) : Prop := ∀ x ∈ m.numbers, x.isFinite = true

variable {m m' last : Moment} {passed : List Moment} {waiting : List Frame} {p q : Parser}

theorem Moment.finite_iff {task : Task} :
    (⟨task, waiting, p⟩ : Moment).Finite ↔
      (∀ x ∈ task.numbers, x.isFinite = true) ∧
        ∀ x ∈ waiting.flatMap Frame.numbers, x.isFinite = true := List.forall_mem_append

/-- A task that has come to no number. -/
theorem Task.finite_of_nil {task : Task} (h : task.numbers = []) :
    ∀ x ∈ task.numbers, x.isFinite = true := by
  intro x hx
  rw [h] at hx
  cases hx

/-- A task for a value has finite numbers, if it has where the value is one. -/
theorem Task.finite_ofExcept {value : Except Fault Binary64} {next : Binary64 → Task}
    (h : ∀ v, value = .ok v → ∀ x ∈ (next v).numbers, x.isFinite = true) :
    ∀ x ∈ (Task.ofExcept value next).numbers, x.isFinite = true := by
  rcases value with fault | v
  · intro x hx
    cases hx
  · exact h v rfl

/-- A call takes no number in hand, but for a literal that has been checked. -/
theorem finite_enter (call : Call)
    (h : ∀ x ∈ waiting.flatMap Frame.numbers, x.isFinite = true) :
    (call.enter waiting p).Finite := by
  rcases call with kind | _ | level | _
  case factor =>
    rw [Call.enter]
    rcases p.lookahead with literal | op | _ | _ | _
    case integer =>
      refine Moment.finite_iff.2 ⟨Task.finite_ofExcept fun v hv x hx => ?_, h⟩
      obtain rfl := List.mem_singleton.1 hx
      obtain ⟨hfinite, rfl⟩ := Binary64.checked_eq_ok_iff.1 hv
      exact hfinite
    case leftParen =>
      dsimp only
      split
      · exact Moment.finite_iff.2 ⟨Task.finite_of_nil rfl, h⟩
      · exact Moment.finite_iff.2 ⟨Task.finite_of_nil rfl, h⟩
    all_goals exact Moment.finite_iff.2 ⟨Task.finite_of_nil rfl, h⟩
  all_goals exact Moment.finite_iff.2 ⟨Task.finite_of_nil rfl, h⟩

/-- **Numbers stay finite.** -/
theorem Step.finite (h : m.Finite) (hstep : Step m m') : m'.Finite := by
  cases hstep with
  | enter call waiting q => exact finite_enter call (Moment.finite_iff.1 h).2
  | consume next waiting q hfront =>
    obtain ⟨hnext, hwaiting⟩ := Moment.finite_iff.1 h
    rcases next with _ | value | ⟨level, op, left, place⟩ | _
    case operand =>
      -- the number goes from the task to the frame that waits
      refine Moment.finite_iff.2 ⟨Task.finite_of_nil rfl, ?_⟩
      exact List.forall_mem_append.2 ⟨hnext, hwaiting⟩
    all_goals exact Moment.finite_iff.2 ⟨hnext, hwaiting⟩
  | stray next waiting q hfront =>
    exact Moment.finite_iff.2 ⟨Task.finite_of_nil rfl, (Moment.finite_iff.1 h).2⟩
  | misplaced next waiting q hkind =>
    exact Moment.finite_iff.2 ⟨Task.finite_of_nil rfl, (Moment.finite_iff.1 h).2⟩
  | finish left waiting q hop => exact h
  | round left waiting q hop => exact h
  | resume frame value waiting q =>
    obtain ⟨hvalue, hframes⟩ := Moment.finite_iff.1 h
    have hwaiting : ∀ x ∈ waiting.flatMap Frame.numbers, x.isFinite = true :=
      fun x hx => hframes x (List.mem_append_right _ hx)
    rcases frame with level | ⟨level, op, left, place⟩ | _ | _
    case right =>
      refine Moment.finite_iff.2 ⟨Task.finite_ofExcept fun v hv x hx => ?_, hwaiting⟩
      obtain rfl := List.mem_singleton.1 hx
      exact Operator.isFinite_of_apply_eq_ok hv
    case rest =>
      rw [Frame.resume]
      rcases q.settings.trailing with _ | _
      · exact Moment.finite_iff.2 ⟨hvalue, hwaiting⟩
      · exact Moment.finite_iff.2 ⟨hvalue, hwaiting⟩
    all_goals exact Moment.finite_iff.2 ⟨hvalue, hwaiting⟩

/-- They do so on a whole passage. -/
theorem Passage.finite (hpassage : Passage m passed last) (h : m.Finite) :
    (∀ m' ∈ passed, m'.Finite) ∧ last.Finite := by
  induction hpassage with
  | nil => exact ⟨List.forall_mem_nil _, h⟩
  | cons hstep _ ih =>
    obtain ⟨hpassed, hlast⟩ := ih ((step_cases hstep).finite h)
    exact ⟨List.forall_mem_cons.2 ⟨h, hpassed⟩, hlast⟩

/-- No numbers are in hand when a call is made. -/
theorem finite_begin (call : Call) (p : Parser) : (call.begin p).Finite :=
  Moment.finite_iff.2 ⟨Task.finite_of_nil rfl, List.forall_mem_nil _⟩

/-! ## Faults -/

/-- Where numbers in hand are finite, so are the operands of an operator. -/
theorem Moment.Finite.proper {a : Application} (h : m.Finite) (ha : m.application? = some a) :
    a.Proper := by
  obtain ⟨level, waiting, p, rfl⟩ := application?_eq_some ha
  exact Application.proper (h a.left (by simp [numbers, Frame.numbers]))
    (h a.right (by simp [numbers, Task.numbers]))

variable {settings : Settings} {text : String} {depth position : Nat}

/-- A literal that is met is a number or an infinity. -/
theorem Regular.toBinary64_ne_nan {literal : Literal} (h : Regular settings text depth m)
    (hliteral : m.literal? = some (literal, position)) : literal.toBinary64 ≠ .nan := by
  obtain ⟨s, _, hrun, hdigits, _, _, rfl⟩ := (h.readsAt_literal hliteral).exists_digits
  rw [Literal.toBinary64_ofDigits hrun hdigits]
  exact Binary64.ofQuotient_ne_nan _ _ _

/-- At a moment with finite numbers, a division by zero comes from a divisor that is zero. -/
theorem Moment.Finite.failsWith_divisionByZero_iff (h : m.Finite) :
    m.FailsWith ⟨.divisionByZero, position⟩ ↔
      ∃ a, m.application? = some a ∧ a.op.Refuses a.right ∧ a.position = position := by
  constructor
  · rintro (⟨literal, place, _, hchecked⟩ | ⟨a, ha, hresult⟩)
    · cases Binary64.fault_of_checked hchecked
    · rcases ((h.proper ha).result_eq_error_iff _).1 hresult with ⟨hrefuses, hfault⟩ | ⟨_, hfault⟩
      · cases hfault
        exact ⟨a, ha, hrefuses, rfl⟩
      · cases hfault
  · rintro ⟨a, ha, hrefuses, rfl⟩
    exact .inr ⟨a, ha, ((h.proper ha).result_eq_error_iff _).2 (.inl ⟨hrefuses, rfl⟩)⟩

/-- An overflow comes from an exact result beyond the range, or from a literal. -/
theorem Moment.Finite.failsWith_overflow_iff (h : m.Finite) :
    m.FailsWith ⟨.overflow, position⟩ ↔
      (∃ a, m.application? = some a ∧ a.Overflows ∧ a.position = position) ∨
        ∃ literal, m.literal? = some (literal, position) ∧
          literal.toBinary64.isFinite = false := by
  constructor
  · rintro (⟨literal, place, hliteral, hchecked⟩ | ⟨a, ha, hresult⟩)
    · obtain ⟨hfinite, hfault⟩ := Binary64.checked_eq_error_iff.1 hchecked
      cases hfault
      exact .inr ⟨literal, hliteral, hfinite⟩
    · rcases ((h.proper ha).result_eq_error_iff _).1 hresult with ⟨_, hfault⟩ | ⟨hover, hfault⟩
      · cases hfault
      · cases hfault
        exact .inl ⟨a, ha, hover, rfl⟩
  · rintro (⟨a, ha, hover, rfl⟩ | ⟨literal, hliteral, hfinite⟩)
    · exact .inr ⟨a, ha, ((h.proper ha).result_eq_error_iff _).2 (.inr ⟨hover, rfl⟩)⟩
    · exact .inl ⟨literal, position, hliteral, Binary64.checked_eq_error_iff.2 ⟨hfinite, rfl⟩⟩

/-- **Nothing but finite numbers.**  Take a parser that was made behind any number of steps through a
    text, after any calls, and call it once more.  There is a passage to what the call comes to.  A
    value is finite; so are the operands of every operator that is applied on the way, and neither
    what it computes nor a literal that is met is `nan`.  The call fails with a division by zero
    exactly if a divisor on the way is zero, of whatever sign, and with an overflow exactly if an
    exact result on the way is at least 2¹⁰²⁴ − 2⁹⁷⁰, with whatever sign, or a literal is not
    finite. -/
theorem finite_throughout {settings : Settings} {text : String} {k : Nat} {start : Parser}
    (hstart : Parser.start settings ((Cursor.ofText text).skip k) = .ok start)
    (calls : List Call) (call : Call) :
    ∃ passed last, Passage (call.begin (after calls start)) passed last ∧
      last.result? = some (call.run (after calls start)) ∧
      (∀ v q, call.run (after calls start) = .ok (some v) q → v.isFinite = true) ∧
      (∀ m ∈ passed, ∀ a, m.application? = some a → a.Proper) ∧
      (∀ m ∈ passed, ∀ literal position, m.literal? = some (literal, position) →
        literal.toBinary64 ≠ .nan) ∧
      ∀ position,
        ((∃ q, call.run (after calls start) = .error ⟨.divisionByZero, position⟩ q) ↔
          ∃ m ∈ passed, ∃ a, m.application? = some a ∧ a.op.Refuses a.right ∧
            a.position = position) ∧
        ((∃ q, call.run (after calls start) = .error ⟨.overflow, position⟩ q) ↔
          ∃ m ∈ passed,
            (∃ a, m.application? = some a ∧ a.Overflows ∧ a.position = position) ∨
              ∃ literal, m.literal? = some (literal, position) ∧
                literal.toBinary64.isFinite = false) := by
  have havailable := (available_of_start hstart).after calls
  obtain ⟨passed, last, hpassage, hresult, hregular, _⟩ := havailable.exists_passage call
  obtain ⟨hpassed, hlast⟩ := hpassage.finite (finite_begin call _)
  refine ⟨passed, last, hpassage, hresult, fun v q hrun => ?_, fun m hm a => (hpassed m hm).proper,
    fun m hm literal position => (hregular m hm).toBinary64_ne_nan, fun position => ⟨?_, ?_⟩⟩
  · rw [hrun] at hresult
    rcases Moment.result_cases hresult with ⟨value, _, rfl, hsame⟩ | ⟨_, _, hsame⟩ | ⟨_, _, _, _, hsame⟩
    · cases hsame
      exact hlast v (by simp [Moment.numbers, Task.numbers])
    · cases hsame
    · cases hsame
  · rw [hpassage.exists_failsWith_iff hresult (.inl rfl)]
    exact exists_congr fun m => and_congr_right fun hm =>
      (hpassed m hm).failsWith_divisionByZero_iff
  · rw [hpassage.exists_failsWith_iff hresult (.inr rfl)]
    exact exists_congr fun m => and_congr_right fun hm => (hpassed m hm).failsWith_overflow_iff

/-- Behind a parenthesis that is consumed before, a number is divided by a zero with a minus sign. -/
theorem divisor_is_negative_zero :
    ∃ start, Parser.start {} ((Cursor.ofText "(7/(0*(0-1))").skip 0) = .ok start ∧
      ∃ passed last, Passage (Call.begin (.chain .sum) (after [.eat .leftParen] start)) passed last ∧
        last.result? = some (Call.run (.chain .sum) (after [.eat .leftParen] start)) ∧
        ∃ m ∈ passed, ∃ a, m.application? = some a ∧ a.Proper ∧ a.op.Refuses a.right ∧
          a.position = 2 := by
  have hstart : Parser.start {} ((Cursor.ofText "(7/(0*(0-1))").skip 0) =
      .ok ⟨{}, (Cursor.ofText "(7/(0*(0-1))").skip 1, .leftParen, 0, 0,
        #[.read .leftParen 0]⟩ := by
    decide +kernel
  refine ⟨_, hstart, ?_⟩
  have hfinite := finite_throughout hstart [.eat .leftParen] (.chain .sum)
  generalize hp : after [.eat .leftParen] _ = p at hfinite ⊢
  obtain ⟨passed, last, hpassage, hresult, _, hproper, _, hfaults⟩ := hfinite
  have houtcome : outcomeOf (Call.run (.chain .sum) p) = .error ⟨.divisionByZero, 2⟩ := by
    rw [← hp]
    decide +kernel
  have hfails : ∃ q, Call.run (.chain .sum) p = .error ⟨.divisionByZero, 2⟩ q := by
    rcases hrun : Call.run (.chain .sum) p with ⟨value, q⟩ | ⟨fault, q⟩
    · rw [hrun] at houtcome
      cases houtcome
    · rw [hrun] at houtcome
      cases houtcome
      exact ⟨q, rfl⟩
  obtain ⟨m, hm, a, ha, hrefuses, hposition⟩ := (hfaults 2).1.1 hfails
  exact ⟨passed, last, hpassage, hresult, m, hm, a, ha, hproper m hm a ha, hrefuses, hposition⟩

end Parser

end Calculator
