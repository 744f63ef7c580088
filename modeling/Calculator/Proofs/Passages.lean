/-
  What is done on the way.

  Problem: a course leads from a call to what the call comes to.  Say what is done on the way, moment
  by moment: which pieces are handed out, which literals are met as factors, which operators are
  applied and to what, and what is written down of it.

  1. **Passages** — `Passage`: a course with all of its moments, in order.  It ends where there is a
     fault, and nowhere before (`Passage.eq_last_of_fail`).

  2. **What is done at a moment** — `pulled?`, `literal?`, `application?`.  Each is read off the task
     and the frames that wait, before the step is taken.

  3. **What is recorded at a moment** — `record?`.  The record of a passage is put together from these
     (`Passage.events_eq`), and the steps that a call has taken are the pieces handed out
     (`Passage.pulls_eq`).

  4. **The crux (`fail_cases`)** — a step that comes to an arithmetic fault checks a literal or
     applies an operator, and the fault is what comes of that.  So a call has such a fault exactly
     if one of these has it on the way (`Passage.exists_failsWith_iff`).

  5. **Result (`Available.exists_passage`)** — every call has a passage, and at each of its moments
     all is as it has to be.
-/
import Calculator.Proofs.Aftermath

namespace Calculator

/-- An operator with its operands and its place. -/
structure Application where
  op : Operator
  left : Binary64
  right : Binary64
  position : Nat
  deriving DecidableEq

/-- What comes of applying the operator. -/
def Application.result (a : Application) : Except Fault Binary64 :=
  a.op.apply a.left a.right a.position

/-- The record of it. -/
def Application.record (a : Application) : Event := .applied a.op a.left a.right a.position

/-- The record of a piece that is handed out, if it is a token. -/
def Placed.record? (here : Placed) : Option Event :=
  here.read?.map fun (token, position) => .read token position

/-- The record of a literal that is met as a factor, if it is rounded. -/
def Literal.record? (literal : Literal) (position : Nat) : Option Event :=
  match literal with
  | .exact _ => none
  | .rounded value => some (.rounded value position)

/-- What is picked out first comes first. -/
theorem filterMap_cons_eq {α β : Type} (pick : α → Option β) (a : α) (items : List α) :
    (a :: items).filterMap pick = (pick a).toList ++ items.filterMap pick := by
  rw [List.filterMap_cons]
  rcases pick a with _ | b <;> rfl

namespace Parser

/-! ## Passages -/

/-- Moments that come one after the other, from the first one on and up to the last one, which is
    not counted among them. -/
inductive Passage : Moment → List Moment → Moment → Prop
  | nil (m : Moment) : Passage m [] m
  | cons {m m' last : Moment} {passed : List Moment} (hstep : step m = some m')
      (h : Passage m' passed last) : Passage m (m :: passed) last

variable {m m' last : Moment} {passed : List Moment}

/-- What leads to a moment passes through the moments between. -/
theorem Leads.exists_passage (h : Leads m last) : ∃ passed, Passage m passed last := by
  induction h using Relation.ReflTransGen.head_induction_on with
  | refl => exact ⟨[], .nil last⟩
  | head hstep _ ih =>
    obtain ⟨passed, hpassed⟩ := ih
    exact ⟨_, .cons hstep hpassed⟩

/-- Every moment of a passage comes behind the first one. -/
theorem Passage.leads_of_mem (h : Passage m passed last) (hmem : m' ∈ passed) : Leads m m' := by
  induction h with
  | nil => cases hmem
  | cons hstep _ ih =>
    rcases List.mem_cons.1 hmem with rfl | hmem
    · exact .refl
    · exact .head hstep (ih hmem)

/-- **Nothing comes behind a fault**: it is what a passage ends with. -/
theorem Passage.eq_last_of_fail {fault : Fault} {waiting : List Frame} {q : Parser}
    (h : Passage m passed last) (hmem : m' ∈ passed)
    (hstep : step m' = some ⟨.fail fault, waiting, q⟩) : last = ⟨.fail fault, waiting, q⟩ := by
  induction h with
  | nil => cases hmem
  | @cons m₁ m₂ _ _ hstep₁ hpassage ih =>
    rcases List.mem_cons.1 hmem with rfl | hmem
    · rw [hstep₁] at hstep
      cases hstep
      cases hpassage with
      | nil => rfl
      | cons hstep₂ _ => cases hstep₂
    · exact ih hmem

/-- A passage that goes anywhere has a moment before the last one. -/
theorem Passage.exists_before_last (h : Passage m passed last) (hne : passed ≠ []) :
    ∃ front m', passed = front ++ [m'] ∧ step m' = some last := by
  induction h with
  | nil => exact absurd rfl hne
  | @cons m₁ _ _ passed hstep hpassage ih =>
    rcases passed with _ | ⟨m₂, passed⟩
    · cases hpassage
      exact ⟨[], m₁, rfl, hstep⟩
    · obtain ⟨front, m', hpassed, hlast⟩ := ih (List.cons_ne_nil _ _)
      exact ⟨m₁ :: front, m', by rw [hpassed]; rfl, hlast⟩

/-! ## What is done at a moment -/

/-- The piece that is handed out, if the token that is wanted is there to be consumed. -/
def Moment.pulled? : Moment → Option Placed
  | ⟨.eat kind _, _, p⟩ => if p.lookahead.kind = kind then some p.cursor.front else none
  | _ => none

/-- The literal that is met as a factor, with its place. -/
def Moment.literal? : Moment → Option (Literal × Nat)
  | ⟨.call .factor, _, p⟩ =>
    match p.lookahead with
    | .integer literal => some (literal, p.position)
    | .leftParen | .operator _ | .rightParen | .endOfInput => none
  | _ => none

/-- The operator that is applied, to what its chain has come to and the value of the operand that is
    complete. -/
def Moment.application? : Moment → Option Application
  | ⟨.give right, .right _ op left position :: _, _⟩ => some ⟨op, left, right, position⟩
  | _ => none

/-- A call does nothing but write down the literal that it meets. -/
theorem Call.parser_enter (call : Call) (waiting : List Frame) (p : Parser) :
    (call.enter waiting p).parser =
      match (⟨.call call, waiting, p⟩ : Moment).literal? with
      | some (literal, _) => p.noted literal
      | none => p := by
  rcases call with kind | _ | level | _
  case factor =>
    rw [Call.enter, Moment.literal?]
    rcases p.lookahead with literal | op | _ | _ | _
    case leftParen =>
      dsimp only
      split <;> rfl
    all_goals rfl
  all_goals rfl

/-- **The cursor goes on** by what is handed out, and by nothing else. -/
theorem Step.cursor_eq (h : Step m m') :
    m'.parser.cursor = m.parser.cursor.skip m.pulled?.toList.length ∧
      m.pulled?.toList = m.parser.cursor.steps m.pulled?.toList.length := by
  cases h with
  | enter call waiting q =>
    refine ⟨?_, rfl⟩
    rw [Call.parser_enter]
    rcases (⟨.call call, waiting, q⟩ : Moment).literal? with _ | ⟨_ | rounded, position⟩ <;> rfl
  | consume next waiting q hfront =>
    rw [Moment.pulled?, if_pos rfl]
    refine ⟨?_, rfl⟩
    cases next <;> rfl
  | stray next waiting q hfront =>
    rw [Moment.pulled?, if_pos rfl]
    exact ⟨rfl, rfl⟩
  | misplaced next waiting q hkind =>
    rw [Moment.pulled?, if_neg hkind]
    exact ⟨rfl, rfl⟩
  | finish left waiting q hop => exact ⟨rfl, rfl⟩
  | round left waiting q hop => exact ⟨rfl, rfl⟩
  | resume frame value waiting q =>
    refine ⟨?_, rfl⟩
    rcases frame with level | ⟨level, op, left, place⟩ | _ | _
    case rest =>
      rw [Frame.resume]
      rcases q.settings.trailing with _ | _
      · dsimp only
        split <;> rfl
      · rfl
    all_goals rfl

/-- The cursor of a passage has taken a step for every piece that was handed out on the way. -/
theorem Passage.cursor_eq (h : Passage m passed last) :
    last.parser.cursor = m.parser.cursor.skip (passed.filterMap Moment.pulled?).length ∧
      passed.filterMap Moment.pulled? =
        m.parser.cursor.steps (passed.filterMap Moment.pulled?).length := by
  induction h with
  | nil => exact ⟨rfl, rfl⟩
  | @cons m₁ m₂ _ passed hstep _ ih =>
    obtain ⟨hcursor, hsteps⟩ := (step_cases hstep).cursor_eq
    rw [filterMap_cons_eq, List.length_append, Cursor.skip_add, Cursor.steps_add, ← hcursor,
      ← ih.1, ← ih.2, ← hsteps]
    exact ⟨rfl, rfl⟩

/-- A literal is met by a call for a factor: it is the lookahead, at its place. -/
theorem Moment.literal?_eq_some {literal : Literal} {position : Nat}
    (h : m.literal? = some (literal, position)) :
    ∃ waiting p, m = ⟨.call .factor, waiting, p⟩ ∧ p.lookahead = .integer literal ∧
      p.position = position := by
  obtain ⟨task, waiting, p⟩ := m
  rcases task with (kind | _ | level | _) | ⟨kind, next⟩ | ⟨level, left⟩ | value | _ | fault
  case call.factor =>
    rw [literal?] at h
    rcases hlook : p.lookahead with literal' | op | _ | _ | _
    case integer =>
      rw [hlook] at h
      cases h
      exact ⟨waiting, p, rfl, hlook, rfl⟩
    all_goals
      rw [hlook] at h
      cases h
  all_goals cases h

/-- An operator is applied where its right operand is complete. -/
theorem Moment.application?_eq_some {a : Application} (h : m.application? = some a) :
    ∃ level waiting p,
      m = ⟨.give a.right, .right level a.op a.left a.position :: waiting, p⟩ := by
  obtain ⟨task, waiting, p⟩ := m
  rcases task with call | ⟨kind, next⟩ | ⟨level, left⟩ | value | _ | fault
  case give =>
    rcases waiting with _ | ⟨level | ⟨level, op, left, place⟩ | _ | _, waiting⟩
    case cons.right =>
      cases h
      exact ⟨level, waiting, p, rfl⟩
    all_goals cases h
  all_goals cases h

/-- Where a literal is met, it is checked. -/
theorem step_of_literal {literal : Literal} {position : Nat}
    (h : m.literal? = some (literal, position)) :
    step m = some ⟨.ofExcept (literal.toBinary64.checked position)
      fun value => .eat .integer (.give value), m.waiting, m.parser.noted literal⟩ := by
  obtain ⟨waiting, p, rfl, hlook, rfl⟩ := Moment.literal?_eq_some h
  simp only [step, Call.enter, hlook]

/-- The literal that is met is the one at its place. -/
theorem Regular.readsAt_literal {settings : Settings} {text : String} {depth position : Nat}
    {literal : Literal} (h : Regular settings text depth m)
    (hliteral : m.literal? = some (literal, position)) :
    ReadsAt text position (.token (.integer literal)) := by
  obtain ⟨n, hreached⟩ := h.held.reached
  obtain ⟨waiting, p, rfl, hlook, rfl⟩ := Moment.literal?_eq_some hliteral
  have hreads := hreached.readsAt (by rw [hlook]; exact Token.noConfusion)
  rwa [hlook] at hreads

/-- The operator that is applied is the one at its place. -/
theorem Regular.readsAt_application {settings : Settings} {text : String} {depth : Nat}
    {a : Application} (h : Regular settings text depth m) (ha : m.application? = some a) :
    ReadsAt text a.position (.token (.operator a.op)) := by
  obtain ⟨level, waiting, p, rfl⟩ := Moment.application?_eq_some ha
  exact (List.forall_mem_cons.1 h.held.begun).1.2

/-- Where an operator is applied, its chain goes on with what comes of it. -/
theorem step_of_application {a : Application} (h : m.application? = some a) :
    ∃ level waiting q, step m = some ⟨.ofExcept a.result fun v => .goOn level v, waiting, q⟩ := by
  obtain ⟨level, waiting, p, rfl⟩ := Moment.application?_eq_some h
  exact ⟨level, waiting, _, rfl⟩

/-! ## What is recorded at a moment -/

/-- The place from which on the rest is ignored, if there is a rest. -/
def Moment.ignored? : Moment → Option Nat
  | ⟨.give _, .rest :: _, p⟩ =>
    if p.settings.trailing = .ignored ∧ p.lookahead ≠ .endOfInput then some p.position else none
  | _ => none

/-- The record that is written: of the piece that is handed out, of the literal that is met, of the
    operator that is applied, or of the rest that is ignored. -/
def Moment.record? (m : Moment) : Option Event :=
  match m.task with
  | .eat _ _ => m.pulled?.bind Placed.record?
  | .call _ => m.literal?.bind fun (literal, position) => literal.record? position
  | .give _ => (m.application?.map Application.record).or (m.ignored?.map Event.ignored)
  | .goOn _ _ | .done | .fail _ => none

/-- **The record goes on** by what is written, and by nothing else. -/
theorem Step.events_eq (h : Step m m') :
    m'.parser.events.toList = m.parser.events.toList ++ m.record?.toList := by
  cases h with
  | enter call waiting q =>
    rw [Call.parser_enter, Moment.record?]
    rcases hliteral : (⟨.call call, waiting, q⟩ : Moment).literal? with
      _ | ⟨_ | rounded, position⟩
    · exact (List.append_nil _).symm
    · exact (List.append_nil _).symm
    · obtain ⟨_, _, heq, -, rfl⟩ := Moment.literal?_eq_some hliteral
      cases heq
      exact Array.toList_push
  | @consume token next waiting q hfront =>
    have hread : (next.follow waiting (q.looking token)).parser.events =
        q.events.push (.read token q.cursor.front.position) := by
      cases next <;> rfl
    rw [hread, Moment.record?, Moment.pulled?, if_pos rfl, Option.bind_some, Placed.record?,
      Placed.read?, hfront]
    exact Array.toList_push
  | stray next waiting q hfront =>
    rw [Moment.record?, Moment.pulled?, if_pos rfl, Option.bind_some, Placed.record?, Placed.read?,
      hfront]
    exact (List.append_nil _).symm
  | misplaced next waiting q hkind =>
    rw [Moment.record?, Moment.pulled?, if_neg hkind]
    exact (List.append_nil _).symm
  | finish left waiting q hop => exact (List.append_nil _).symm
  | round left waiting q hop => exact (List.append_nil _).symm
  | resume frame value waiting q =>
    rcases frame with level | ⟨level, op, left, place⟩ | _ | _
    case right => exact Array.toList_push
    case rest =>
      rw [Frame.resume, Moment.record?, Moment.ignored?]
      rcases q.settings.trailing with _ | _
      · by_cases hend : q.lookahead = .endOfInput
        · simp [Moment.application?, hend]
        · simp [Moment.application?, hend, recorded]
      · simp [Moment.application?]
    all_goals exact (List.append_nil _).symm

/-- The record of a passage holds what is written on the way. -/
theorem Passage.events_eq (h : Passage m passed last) :
    last.parser.events.toList = m.parser.events.toList ++ passed.filterMap Moment.record? := by
  induction h with
  | nil => exact (List.append_nil _).symm
  | @cons m₁ _ _ passed hstep _ ih =>
    rw [ih, (step_cases hstep).events_eq, List.append_assoc, filterMap_cons_eq]

/-- The tokens that are recorded are those among the pieces that are handed out. -/
theorem Moment.read?_record? (m : Moment) :
    m.record?.bind Event.read? = m.pulled?.bind Placed.read? := by
  obtain ⟨task, waiting, p⟩ := m
  rcases task with call | ⟨kind, next⟩ | ⟨level, left⟩ | value | _ | fault
  case call =>
    rw [record?]
    rcases (⟨.call call, waiting, p⟩ : Moment).literal? with _ | ⟨_ | rounded, position⟩ <;> rfl
  case eat =>
    rw [record?]
    rcases (⟨.eat kind next, waiting, p⟩ : Moment).pulled? with _ | ⟨token | x, position⟩ <;> rfl
  case give =>
    rw [record?]
    rcases waiting with _ | ⟨level | ⟨level, op, left, place⟩ | _ | _, waiting⟩
    case cons.rest =>
      by_cases hrest : p.settings.trailing = .ignored ∧ p.lookahead ≠ .endOfInput
      · rw [ignored?, if_pos hrest]
        rfl
      · rw [ignored?, if_neg hrest]
        rfl
    all_goals rfl
  all_goals rfl

/-- What has been read on the way are the tokens among the pieces that were handed out. -/
theorem Passage.reads_eq (h : Passage m passed last) :
    last.parser.reads =
      m.parser.reads ++ (passed.filterMap Moment.pulled?).filterMap Placed.read? := by
  rw [reads, h.events_eq, List.filterMap_append, List.filterMap_filterMap, List.filterMap_filterMap,
    reads]
  congr 2
  funext m'
  exact m'.read?_record?

/-! ## Faults -/

variable {fault : Fault} {waiting : List Frame} {p q : Parser}

/-- The literal that is checked, or the operator that is applied, comes to this fault. -/
def Moment.FailsWith (m : Moment) (fault : Fault) : Prop :=
  (∃ literal position, m.literal? = some (literal, position) ∧
      literal.toBinary64.checked position = .error fault) ∨
    ∃ a, m.application? = some a ∧ a.result = .error fault

/-- Then the fault comes next. -/
theorem Moment.FailsWith.step_eq (h : m.FailsWith fault) :
    ∃ waiting q, step m = some ⟨.fail fault, waiting, q⟩ := by
  rcases h with ⟨literal, position, hliteral, hchecked⟩ | ⟨a, happlication, hresult⟩
  · have hstep := step_of_literal hliteral
    rw [hchecked] at hstep
    exact ⟨_, _, hstep⟩
  · obtain ⟨level, waiting, q, hstep⟩ := step_of_application happlication
    rw [hresult] at hstep
    exact ⟨waiting, q, hstep⟩

/-- What is checked or applied comes to arithmetic faults only. -/
theorem Moment.FailsWith.isArithmetic (h : m.FailsWith fault) : fault.cause.IsArithmetic := by
  rcases h with ⟨literal, position, _, hchecked⟩ | ⟨a, _, hresult⟩
  · rw [Binary64.fault_of_checked hchecked]
    exact .inr rfl
  · exact (Operator.fault_of_apply hresult).2

/-- **What a step that fails can do**: it hands out a stray, or it hands out nothing.  In the second
    case it finds a token misplaced or too deep, or else it checks a literal or applies an operator
    that has the fault. -/
theorem fail_cases (h : Step m ⟨.fail fault, waiting, q⟩) :
    (∃ x, m.pulled? = some ⟨.stray x, fault.position⟩ ∧ fault.cause = .strayCharacter x) ∨
      (m.pulled? = none ∧ fault.cause.strays = 0 ∧ ¬ fault.cause.IsArithmetic) ∨
      (m.pulled? = none ∧ m.FailsWith fault) := by
  generalize hm' : (⟨.fail fault, waiting, q⟩ : Moment) = m' at h
  cases h with
  | enter call waiting' p =>
    refine .inr ?_
    rcases call with kind | _ | level | _
    case factor =>
      rw [Call.enter] at hm'
      rcases hlook : p.lookahead with literal | op | _ | _ | _
      case integer =>
        simp only [hlook, Moment.mk.injEq] at hm'
        have hchecked := Task.eq_error_of_ofExcept hm'.1.symm fun _ => by simp
        refine .inr ⟨rfl, .inl ⟨literal, p.position, ?_, hchecked⟩⟩
        simp only [Moment.literal?, hlook]
      case leftParen =>
        simp only [hlook] at hm'
        split at hm'
        · cases hm'
        · cases hm'
          exact .inl ⟨rfl, rfl, by rintro (h | h) <;> cases h⟩
      all_goals
        simp only [hlook] at hm'
        cases hm'
        exact .inl ⟨rfl, rfl, by rintro (h | h) <;> cases h⟩
    all_goals cases hm'
  | consume next waiting' p hfront => cases next <;> cases hm'
  | @stray x next waiting' p hfront =>
    cases hm'
    refine .inl ⟨x, ?_, rfl⟩
    rw [Moment.pulled?, if_pos rfl, ← hfront]
  | misplaced next waiting' p hkind =>
    cases hm'
    refine .inr (.inl ⟨?_, rfl, by rintro (h | h) <;> cases h⟩)
    rw [Moment.pulled?, if_neg hkind]
  | finish left waiting' p hop => cases hm'
  | round left waiting' p hop => cases hm'
  | resume frame value waiting' p =>
    rcases frame with level | ⟨level, op, left, place⟩ | _ | _
    case right =>
      simp only [Frame.resume, Moment.mk.injEq] at hm'
      have happly := Task.eq_error_of_ofExcept hm'.1.symm fun _ => by simp
      exact .inr (.inr ⟨rfl, .inr ⟨⟨op, left, value, place⟩, rfl, happly⟩⟩)
    case rest =>
      rw [Frame.resume] at hm'
      rcases htrailing : p.settings.trailing with _ | _
      · simp only [htrailing] at hm'
        cases hm'
      · simp only [htrailing] at hm'
        cases hm'
    all_goals cases hm'

/-- If the fault is arithmetic, the step does the last of these. -/
theorem Step.failsWith (h : Step m ⟨.fail fault, waiting, q⟩) (hfault : fault.cause.IsArithmetic) :
    m.FailsWith fault := by
  rcases fail_cases h with ⟨x, _, hcause⟩ | ⟨_, _, hnot⟩ | ⟨_, hfails⟩
  · rw [hcause] at hfault
    rcases hfault with hfault | hfault <;> cases hfault
  · exact absurd hfault hnot
  · exact hfails

/-- How many of the pieces that have been handed out just before were no tokens. -/
def Moment.strays (m : Moment) : Nat :=
  match m.task with
  | .fail fault => fault.cause.strays
  | .call _ | .eat _ _ | .goOn _ _ | .give _ | .done => 0

/-- A step hands out a token, or a stray that it fails with, or nothing. -/
theorem Step.strays_eq (h : Step m m') :
    m.pulled?.toList.length = (m.pulled?.toList.filterMap Placed.read?).length + m'.strays := by
  have hfails : ∀ (fault : Fault) (waiting : List Frame) (q : Parser),
      Step m ⟨.fail fault, waiting, q⟩ → m.pulled?.toList.length =
        (m.pulled?.toList.filterMap Placed.read?).length + fault.cause.strays := by
    intro fault waiting q hstep
    rcases fail_cases hstep with ⟨x, hpulled, hcause⟩ | ⟨hpulled, hstrays, _⟩ | ⟨hpulled, hfails⟩
    · rw [hpulled, hcause]
      rfl
    · rw [hpulled, hstrays]
      rfl
    · rw [hpulled, hfails.isArithmetic.strays_eq]
      rfl
  obtain ⟨task, waiting, q⟩ := m'
  rcases task with call | ⟨kind, next⟩ | ⟨level, left⟩ | value | _ | fault
  case fail => exact hfails fault waiting q h
  all_goals
    generalize hm' : (⟨_, waiting, q⟩ : Moment) = m' at h
    cases h with
    | enter call waiting' p =>
      rw [← hm']
      rfl
    | consume next waiting' p hfront =>
      rw [← hm', Moment.pulled?, if_pos rfl, Option.toList_some, List.filterMap_cons, Placed.read?,
        hfront]
      rfl
    | stray next waiting' p hfront => cases hm'
    | misplaced next waiting' p hkind => cases hm'
    | finish left waiting' p hop =>
      rw [← hm']
      rfl
    | round left waiting' p hop =>
      rw [← hm']
      rfl
    | resume frame value waiting' p =>
      rw [← hm']
      rfl

/-- All pieces that are handed out on a passage have been read, but for the stray that it ends
    with. -/
theorem Passage.strays_eq (h : Passage m passed last) :
    (passed.filterMap Moment.pulled?).length + m.strays =
      ((passed.filterMap Moment.pulled?).filterMap Placed.read?).length + last.strays := by
  induction h with
  | nil => rfl
  | @cons m₁ m₂ _ passed hstep _ ih =>
    have hfirst : m₁.strays = 0 := by
      obtain ⟨task, waiting, q⟩ := m₁
      cases task <;> first | rfl | cases hstep
    have hmore := (step_cases hstep).strays_eq
    rw [filterMap_cons_eq, List.filterMap_append, List.length_append, List.length_append, hfirst]
    omega

/-! ## Calls -/

/-- A call is not over when it is made. -/
theorem Passage.ne_nil {call : Call}
    {result : EStateM.Result Fault Parser (Option Binary64)}
    (h : Passage (call.begin p) passed last) (hresult : last.result? = some result) :
    passed ≠ [] := by
  rintro rfl
  cases h
  cases hresult

/-- As many steps have been taken, in all, as had been taken before the call and are taken on the
    way. -/
theorem Passage.pulls_eq {call : Call} (h : Passage (call.begin p) passed last)
    (hresult : last.result? = some (call.run p)) :
    pulls (call.run p) = p.reads.length + (passed.filterMap Moment.pulled?).length := by
  have hstrays : (passed.filterMap Moment.pulled?).length =
      ((passed.filterMap Moment.pulled?).filterMap Placed.read?).length + last.strays :=
    h.strays_eq
  have hreads : last.parser.reads.length = p.reads.length +
      ((passed.filterMap Moment.pulled?).filterMap Placed.read?).length := by
    rw [h.reads_eq, List.length_append]
    rfl
  have hpulls : pulls (call.run p) = last.parser.reads.length + last.strays := by
    generalize call.run p = result at hresult
    rcases Moment.result_cases hresult with ⟨_, _, rfl, rfl⟩ | ⟨_, rfl, rfl⟩ | ⟨_, _, _, rfl, rfl⟩ <;>
      rfl
  omega

/-- **Arithmetic faults come from arithmetic.**  A call has such a fault exactly if, somewhere on the
    way, a literal is checked or an operator is applied that has it. -/
theorem Passage.exists_failsWith_iff {call : Call} (h : Passage (call.begin p) passed last)
    (hresult : last.result? = some (call.run p)) (hfault : fault.cause.IsArithmetic) :
    (∃ q, call.run p = .error fault q) ↔ ∃ m ∈ passed, m.FailsWith fault := by
  constructor
  · rintro ⟨q, hrun⟩
    obtain ⟨front, m, rfl, hstep⟩ := h.exists_before_last (h.ne_nil hresult)
    rw [hrun] at hresult
    obtain ⟨waiting, rfl⟩ := Moment.eq_fail_of_result hresult
    exact ⟨m, List.mem_append_right _ List.mem_cons_self, (step_cases hstep).failsWith hfault⟩
  · rintro ⟨m, hmem, hfails⟩
    obtain ⟨waiting, q, hstep⟩ := hfails.step_eq
    rw [h.eq_last_of_fail hmem hstep] at hresult
    exact ⟨q, (Option.some.inj hresult).symm⟩

variable {settings : Settings} {text : String}

/-- **Every call has a passage**, which ends with what the call comes to, and all is as it has to be
    at each of its moments. -/
theorem Available.exists_passage (h : Available settings text p) (call : Call) :
    ∃ passed last, Passage (call.begin p) passed last ∧ last.result? = some (call.run p) ∧
      (∀ m ∈ passed, Regular settings text p.depth m) ∧ Regular settings text p.depth last := by
  obtain ⟨last, hleads, hresult, hregular⟩ := h.exists_course call
  obtain ⟨passed, hpassage⟩ := hleads.exists_passage
  exact ⟨passed, last, hpassage, hresult,
    fun m hmem => ((h.regular call).leads (hpassage.leads_of_mem hmem)).1, hregular⟩

end Parser

end Calculator
