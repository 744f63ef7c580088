/-
  What is recorded of a computation.

  Problem: literals and operators are recorded one by one, while a text is parsed.  Show that the
  records are, all together, those of the machine that runs the code of the outline: nothing is
  recorded twice, nothing is left out, and the operands in the records are the numbers on the stack.

  1. **The machine's records** — `records`: what is written down when code is run, up to and with
     the first instruction that fails.

  2. **Relation** — `Recounts`: an action adds the records of an outline's code to those that a parser
     has.

  3. **The crux (`Recounts.bind`)** — the relation goes through sequences.  Where the code of the
     first part fails, the parser has stopped, and so have the records of the machine; elsewhere
     `Follows` tells on which stack the code of the second part is run.

  4. **Result (`Evaluation.computations_run`)** — for every text, whatever it comes to.  If that is a
     value, the code is that of the expression, and the operators are recorded in post-order, every
     one of them once (`Phrase.operators_perm`).
-/
import Calculator.Proofs.Passages
import Calculator.Proofs.Remainder

namespace Calculator

/-! ## Records of the machine -/

/-- The event is a literal that is met or an operator that is applied. -/
def Event.isComputation : Event → Bool
  | .rounded .. | .applied .. => true
  | .started _ | .read .. | .ignored _ | .succeeded .. | .failed .. => false

/-- The record of an instruction that is about to be run, if it leaves one. -/
def Instruction.record? : Instruction → List Binary64 → Option Event
  | .push literal position, _ => literal.record? position
  | .apply op position, right :: left :: _ => some (.applied op left right position)
  | .apply _ _, _ => none

/-- The records of instructions that are run in order, until one of them stops the machine.  That one
    is recorded too. -/
def records : List Instruction → List Binary64 → List Event
  | [], _ => []
  | instruction :: code, stack =>
    (instruction.record? stack).toList ++
      match instruction.run stack with
      | .ok reached => records code reached
      | .error _ => []

theorem records_singleton (instruction : Instruction) (stack : List Binary64) :
    records [instruction] stack = (instruction.record? stack).toList := by
  rw [records]
  rcases instruction.run stack with halt | reached
  · exact List.append_nil _
  · exact List.append_nil _

/-- The records go on where the code does. -/
theorem records_append_of_ok {code : List Instruction} (code' : List Instruction)
    {reached : List Binary64} :
    ∀ {stack : List Binary64}, execute code stack = .ok reached →
      records (code ++ code') stack = records code stack ++ records code' reached := by
  induction code with
  | nil =>
    intro stack h
    cases h
    rfl
  | cons instruction code ih =>
    intro stack h
    rw [execute_cons] at h
    rw [List.cons_append, records, records]
    rcases hrun : instruction.run stack with halt | next
    · rw [hrun] at h
      cases h
    · rw [hrun] at h
      dsimp only
      rw [ih h, List.append_assoc]

/-- Behind an instruction that fails nothing is recorded. -/
theorem records_append_of_error {code : List Instruction} (code' : List Instruction) {halt : Halt} :
    ∀ {stack : List Binary64}, execute code stack = .error halt →
      records (code ++ code') stack = records code stack := by
  induction code with
  | nil =>
    intro stack h
    cases h
  | cons instruction code ih =>
    intro stack h
    rw [execute_cons] at h
    rw [List.cons_append, records, records]
    rcases hrun : instruction.run stack with halt' | next
    · rfl
    · rw [hrun] at h
      dsimp only
      rw [ih h]

/-! ## Operators in post-order -/

/-- The operator and its place, if an operator is applied. -/
def Instruction.operator? : Instruction → Option (Operator × Nat)
  | .push _ _ => none
  | .apply op position => some (op, position)

/-- The operator with its operands and its place, if the event is that it is applied. -/
def Event.application? : Event → Option Application
  | .applied op left right position => some ⟨op, left, right, position⟩
  | .started _ | .read .. | .rounded .. | .ignored _ | .succeeded .. | .failed .. => none

/-- The operator and its place, without the operands. -/
def Application.operator (a : Application) : Operator × Nat := (a.op, a.position)

/-- The operator and its place, if the piece writes one. -/
def Placed.operator? (here : Placed) : Option (Operator × Nat) :=
  match here.reading with
  | .token (.operator op) => some (op, here.position)
  | .token _ | .stray _ => none

/-- The operators of a phrase in post-order, with their places. -/
def Phrase.operators {k : Nonterminal} (e : Phrase k) : List (Operator × Nat) :=
  e.code.filterMap Instruction.operator?

/-- **In post-order stands every operator of the phrase, as often as it is written.** -/
theorem Phrase.operators_perm {k : Nonterminal} (e : Phrase k) :
    e.operators.Perm (e.placed.filterMap Placed.operator?) := by
  induction e with
  | integer literal position => exact .refl _
  | group opening inner closing ih =>
    have hplaced : (Phrase.group opening inner closing).placed.filterMap Placed.operator? =
        inner.placed.filterMap Placed.operator? := by
      rw [placed, List.filterMap_cons, List.filterMap_append]
      exact List.append_nil _
    rw [hplaced]
    exact ih
  | term inner ih => exact ih
  | chain first more ih₁ ih₂ =>
    rw [placed, List.filterMap_append, operators, code, List.filterMap_append]
    exact ih₁.append ih₂
  | done => exact .refl _
  | round op position h right more ih₁ ih₂ =>
    have hoperators : (Phrase.round op position h right more).operators =
        right.operators ++ (op, position) :: more.operators := by
      rw [operators, code, List.filterMap_append, List.filterMap_cons]
      rfl
    have hplaced : (Phrase.round op position h right more).placed.filterMap Placed.operator? =
        (op, position) :: (right.placed.filterMap Placed.operator? ++
          more.placed.filterMap Placed.operator?) := by
      rw [placed, List.filterMap_cons, List.filterMap_append]
      rfl
    rw [hoperators, hplaced]
    exact List.perm_middle.trans ((ih₁.append ih₂).cons _)

/-- An operator that has its operands is recorded. -/
theorem Instruction.operator?_record? {instruction : Instruction} {stack reached : List Binary64}
    (h : instruction.run stack = .ok reached) :
    ((instruction.record? stack).toList.filterMap Event.application?).map Application.operator =
      instruction.operator?.toList := by
  rcases instruction with ⟨literal, position⟩ | ⟨op, position⟩
  · cases literal <;> rfl
  · rcases stack with _ | ⟨right, _ | ⟨left, stack⟩⟩
    · cases h
    · cases h
    · rfl

/-- Code that does not fail has all of its operators recorded, in its own order. -/
theorem operators_records {code : List Instruction} {reached : List Binary64} :
    ∀ {stack : List Binary64}, execute code stack = .ok reached →
      ((records code stack).filterMap Event.application?).map Application.operator =
        code.filterMap Instruction.operator? := by
  induction code with
  | nil => exact fun _ => rfl
  | cons instruction code ih =>
    intro stack h
    rw [execute_cons] at h
    rcases hrun : instruction.run stack with halt | next
    · rw [hrun] at h
      cases h
    · rw [hrun] at h
      rw [records, hrun, List.filterMap_append, List.map_append,
        Instruction.operator?_record? hrun, ih h, filterMap_cons_eq]

/-! ## The relation -/

/-- The computations that a parser has recorded. -/
def Parser.computations (p : Parser) : List Event := p.events.toList.filter Event.isComputation

variable {α β γ δ : Type}

/-- What began in `p` has added the records of the outline's code, which is run on `stack`. -/
def Recounts (p : Parser) (stack : List Binary64) (o : Outline β)
    (result : EStateM.Result Fault Parser α) : Prop :=
  (ending result).computations = p.computations ++ records o.code stack

/-- A rule of the parser adds the records of what one of the outline writes. -/
def Records (settings : Settings) (finish : Nat) (rule : Rule Binary64) (outline : Outline.Rule) :
    Prop :=
  ∀ (p : Parser) (base : List Binary64), p.Ready settings finish →
    Recounts p base (outline p.ahead) (rule p)

variable {settings : Settings} {finish : Nat} {p q : Parser} {stack base : List Binary64}
  {ahead : List Placed}

/-- **One after the other.**  If the first actions follow each other and the first records are as they
    should be, and so are the second ones from wherever the first may end well, then so are those of
    the sequences. -/
theorem Recounts.bind {reads : List (Token × Nat)} {o : Outline β} {next : β → Outline δ}
    {result : EStateM.Result Fault Parser α}
    {action : α → Parser → EStateM.Result Fault Parser γ}
    {mid : α → Parser → β → List Binary64 → Prop} (hfollows : Follows reads stack o result mid)
    (hfirst : Recounts p stack o result)
    (hsecond : ∀ a q b reached, mid a q b reached → Recounts q reached (next b) (action a q)) :
    Recounts p stack (o >>= next) (andThen result action) := by
  unfold Follows at hfollows
  rcases hrun : execute o.code stack with halt | reached
  · -- the machine stops in the first part, and the outline may go on
    rw [hrun] at hfollows
    have hcode : records (o >>= next).code stack = records o.code stack := by
      rcases hending : o.ending with fault | b
      · rw [Outline.bind_of_error hending]
      · rw [Outline.bind_of_ok hending]
        exact records_append_of_error _ hrun
    rcases halt with fault | _
    · obtain ⟨q, rfl, _⟩ := hfollows
      rw [Recounts, hcode]
      exact hfirst
    · exact hfollows.elim
  · rw [hrun] at hfollows
    rcases hending : o.ending with fault | b
    · rw [hending] at hfollows
      obtain ⟨q, rfl, _⟩ := hfollows
      rw [Outline.bind_of_error hending]
      exact hfirst
    · rw [hending] at hfollows
      obtain ⟨a, q, rfl, _, hmid⟩ := hfollows
      have hfirst' : q.computations = p.computations ++ records o.code stack := hfirst
      rw [Outline.bind_of_ok hending, Recounts, records_append_of_ok _ hrun, andThen_ok,
        hsecond a q b reached hmid, hfirst', List.append_assoc]

/-- The parser gives back another value than the one it has got last. -/
theorem Recounts.map {o : Outline β} {result : EStateM.Result Fault Parser α} {f : α → γ}
    (h : Recounts p stack o result) :
    Recounts p stack o (andThen result fun a q => .ok (f a) q) := by
  cases result <;> exact h

/-! ## Single actions -/

/-- Where no code is written, no computation is recorded. -/
theorem recounts_nil {o : Outline β} {result : EStateM.Result Fault Parser α} (hcode : o.code = [])
    (h : (ending result).computations = p.computations) : Recounts p stack o result := by
  rw [Recounts, hcode, h]
  exact (List.append_nil _).symm

/-- An event that is no computation does not count. -/
theorem Parser.computations_push {event : Event} (h : event.isComputation = false) :
    ({ p with events := p.events.push event } : Parser).computations = p.computations := by
  simp [computations, h]

/-- Consuming a token is no computation. -/
theorem recounts_eat (kind : TokenKind) :
    Recounts p stack (Outline.pull finish ahead) (Parser.eat kind p) := by
  refine recounts_nil (Outline.code_pull finish ahead) ?_
  rcases Parser.eat_cases kind p with ⟨token, _, _, heat⟩ | ⟨x, _, _, heat⟩ | ⟨_, heat⟩
  · rw [heat]
    exact Parser.computations_push rfl
  · rw [heat]
    rfl
  · rw [heat]
    rfl

/-- What is recorded just before a value is computed is the record of the instruction. -/
theorem recounts_emit {instruction : Instruction} (value : Except Fault Binary64)
    (h : q.computations = p.computations ++ (instruction.record? stack).toList) :
    Recounts p stack (Outline.emit instruction) ((ofExcept value : Rule Binary64) q) := by
  rw [Recounts, Outline.emit, records_singleton, ← h]
  cases value <;> rfl

/-- An operator is recorded with its operands. -/
theorem Parser.computations_applied (p : Parser) (op : Operator) (left right : Binary64)
    (position : Nat) :
    (p.recorded (.applied op left right position)).computations = p.computations ++
      ((Instruction.apply op position).record? (right :: left :: base)).toList := by
  simp [computations, recorded, Instruction.record?, Event.isComputation]

/-- A literal is recorded if it is rounded. -/
theorem Parser.computations_noted (p : Parser) (literal : Literal) :
    (p.noted literal).computations = p.computations ++
      ((Instruction.push literal p.position).record? stack).toList := by
  cases literal with
  | exact value => exact (List.append_nil _).symm
  | rounded value =>
    simp [computations, noted, recorded, Instruction.record?, Literal.record?,
      Event.isComputation]

/-! ## Rules -/

/-- **Rounds record rounds.**  What the chain has come to lies on the stack when a round begins. -/
theorem rounds_records {level : Level} {operand : Rule Binary64} {outline : Outline.Rule}
    (hrealizes : Realizes settings finish operand outline)
    (hrecords : Records settings finish operand outline) :
    ∀ (n : Nat) (left : Binary64) (p : Parser) (base : List Binary64), p.Ready settings finish →
      Recounts p (left :: base) (Outline.rounds finish level outline n p.ahead)
        (Parser.rounds level operand n left p) := by
  intro n
  induction n with
  | zero => exact fun left p base h => recounts_nil rfl rfl
  | succ n ih =>
    intro left p base h
    rw [Outline.rounds, Parser.operator?_ahead]
    rcases hop : Parser.operatorOf level p with _ | op
    · rw [Parser.rounds_of_operatorOf_eq_none hop]
      exact recounts_nil rfl rfl
    · rw [Parser.rounds_of_operatorOf hop, Option.map_some, ← h.tail_ahead]
      refine .bind (follows_eat h (Parser.kind_of_operatorOf hop)) (recounts_eat _) ?_
      rintro _ q _ _ ⟨hq, rfl, rfl⟩
      refine .bind (hrealizes q (left :: base) hq) (hrecords q (left :: base) hq) ?_
      rintro right r _ _ ⟨hr, rfl, rfl⟩
      refine .bind (follows_emit (Instruction.run_apply op p.position left right base))
        (recounts_emit _ (r.computations_applied op left right p.position)) ?_
      rintro value _ _ _ ⟨rfl, rfl⟩
      exact ih value _ base (hr.recorded _)

/-- Chains record chains. -/
theorem chain_records {level : Level} {operand : Rule Binary64} {outline : Outline.Rule}
    (hrealizes : Realizes settings finish operand outline)
    (hrecords : Records settings finish operand outline) :
    Records settings finish (Parser.chain level operand) (Outline.chain finish level outline) := by
  intro p base h
  rw [Parser.chain_eq]
  refine .bind (hrealizes p base h) (hrecords p base h) ?_
  rintro first q _ _ ⟨hq, rfl, rfl⟩
  simp only [hq.remaining_eq]
  exact rounds_records hrealizes hrecords _ first q base hq

/-- Expressions record expressions. -/
theorem exprBy_records {factor : Rule Binary64} {outline : Outline.Rule}
    (hrealizes : Realizes settings finish factor outline)
    (hrecords : Records settings finish factor outline) :
    Records settings finish (Parser.exprBy factor) (Outline.exprBy finish outline) :=
  chain_records (chain_realizes hrealizes) (chain_records hrealizes hrecords)

/-- A literal is recorded before it is checked. -/
theorem recounts_integer (literal : Literal) :
    Recounts p base (do Outline.emit (.push literal p.position); Outline.pull finish ahead)
      (Parser.integer literal p) := by
  rw [Parser.integer_eq]
  refine .bind (follows_emit (Instruction.run_push _ _ base))
    (recounts_emit _ (p.computations_noted literal)) ?_
  rintro value _ _ _ ⟨rfl, rfl⟩
  exact (recounts_eat .integer).map

/-- A closing parenthesis leaves no code. -/
theorem Outline.code_close (finish : Nat) (ahead : List Placed) : (close finish ahead).code = [] := by
  rw [close.eq_def]
  split
  · exact code_pull finish _
  · rfl

/-- An expression in parentheses leaves the records of what stands in them. -/
theorem recounts_group {inner : Rule Binary64} {outline : Outline.Rule}
    (hrealizes : Realizes settings finish inner outline)
    (hrecords : Records settings finish inner outline) (h : p.Ready settings finish)
    (hlook : p.lookahead = .leftParen) :
    Recounts p base (Outline.group finish outline p.ahead.tail) (Parser.group inner p) := by
  rw [Parser.group_eq]
  have hkind : p.lookahead.kind = .leftParen := by
    rw [hlook]
    rfl
  have hopen : Follows p.reads base (Outline.pull finish p.ahead.tail) (Parser.eat .leftParen p)
      (Arrives settings finish fun _ => base) := follows_eat h hkind
  refine .bind hopen (recounts_eat _) ?_
  rintro _ q _ reached ⟨hq, rfl, rfl⟩
  have hinside := hq.withDepth (q.depth + 1)
  refine .bind (hrealizes _ reached hinside) (hrecords _ reached hinside) ?_
  rintro value r _ _ ⟨_, rfl, rfl⟩
  have hclose : Recounts r (value :: reached) (Outline.pull finish r.ahead)
      (Parser.eat .rightParen { r with depth := r.depth - 1 }) :=
    recounts_eat (p := { r with depth := r.depth - 1 }) .rightParen
  refine Recounts.map ?_
  rw [Recounts, Outline.code_close, ← Outline.code_pull finish r.ahead]
  exact hclose

/-- Factors record factors, if what begins with a parenthesis does. -/
theorem factorBy_records {parenthesized : Rule Binary64} {outline : Nat → Outline.Rule}
    (hparenthesized : ∀ (p : Parser) (base : List Binary64), p.Ready settings finish →
      p.lookahead = .leftParen → Recounts p base (outline p.position p.ahead.tail) (parenthesized p)) :
    Records settings finish (Parser.factorBy parenthesized) (Outline.factorBy finish outline) := by
  intro p base h
  rcases hlook : p.lookahead with literal | op | _ | _ | _
  case integer =>
    rw [Parser.ahead_of_ne hlook (by simp), Parser.factorBy_of_integer hlook]
    exact recounts_integer literal
  case leftParen =>
    have houtline : Outline.factorBy finish outline p.ahead =
        outline p.position p.ahead.tail := by
      rw [Parser.ahead_of_ne hlook (by simp)]
      rfl
    rw [houtline, Parser.factorBy_of_leftParen hlook]
    exact hparenthesized p base h hlook
  case endOfInput =>
    rw [Parser.factorBy_of_ne (by simp [hlook]) (by simp [hlook]), Parser.ahead_of_end hlook]
    exact recounts_nil rfl rfl
  all_goals
    rw [Parser.factorBy_of_ne (by simp [hlook]) (by simp [hlook]),
      Parser.ahead_of_ne hlook (by simp)]
    exact recounts_nil rfl rfl

/-- **Factors record factors**, by induction on how many more parentheses may be opened. -/
theorem factorWithin_records (settings : Settings) (finish : Nat) :
    ∀ budget, Records settings finish (Parser.factorWithin budget)
      (Outline.factorWithin settings.maxDepth finish budget) := by
  intro budget
  induction budget with
  | zero => exact factorBy_records fun p base _ _ => recounts_nil rfl rfl
  | succ budget ih =>
    have hrealizes := factorWithin_realizes settings finish budget
    exact factorBy_records fun p base h hlook =>
      recounts_group (exprBy_realizes hrealizes) (exprBy_records hrealizes ih) h hlook

/-! ## Whole texts -/

/-- What is left over leaves no code. -/
theorem Outline.code_trailing (finish : Nat) (leftOver : Trailing) (rest : List Placed) :
    (trailing finish leftOver rest).code = [] := by
  rw [trailing.eq_def]
  split
  · rfl
  · rfl
  · rfl

/-- Nor is it a computation. -/
theorem Parser.computations_settle (value : Binary64) (p : Parser) :
    (ending (settle value p)).computations = p.computations := by
  rw [settle]
  rcases p.settings.trailing with _ | _
  · dsimp only [ending]
    split
    · rfl
    · exact computations_push rfl
  · have heat : Recounts p [] (Outline.pull 0 []) (eat .endOfInput p) := recounts_eat .endOfInput
    have hmap : Recounts p [] (Outline.pull 0 [])
        (andThen (eat .endOfInput p) fun _ q => .ok value q) := heat.map
    rw [Recounts, Outline.code_pull] at hmap
    exact hmap.trans (List.append_nil _)

/-- A fresh parser records what the outline of all that lies ahead writes. -/
theorem recounts_parse (h : p.Ready settings finish) (hdepth : p.depth = 0) :
    Recounts p []
      (do
        let rest ← Outline.exprBy finish
          (Outline.factorWithin settings.maxDepth finish settings.maxDepth) p.ahead
        Outline.trailing finish settings.trailing rest)
      (Parser.parse p) := by
  have hfactor := factorWithin_realizes settings finish settings.maxDepth
  have hbudget : p.budget = settings.maxDepth := by
    rw [Parser.budget, h.settings_eq, hdepth, Nat.sub_zero]
  rw [Parser.parse_eq, Parser.expr, hbudget]
  refine .bind (exprBy_realizes hfactor p [] h)
    (exprBy_records hfactor (factorWithin_records settings finish _) p [] h) ?_
  rintro value q _ _ ⟨_, rfl, rfl⟩
  exact recounts_nil (Outline.code_trailing _ _ _) (q.computations_settle value)

/-- A parser has recorded nothing but its first token when it is made. -/
theorem Parser.events_of_start {cursor : Cursor} (h : start settings cursor = .ok p) :
    p.events = #[.read p.lookahead p.position] := by
  rw [start] at h
  split at h
  · cases h
    rfl
  · cases h

/-- The last record of an evaluation. -/
def Event.ofOutcome (text : String) : Except Fault Binary64 → Event
  | .ok value => .succeeded text value
  | .error fault => .failed text fault

/-- The record of an evaluation is the announcement of the text, what its parser has recorded, and
    the outcome. -/
theorem Evaluation.log_of_start {text : String}
    (hstart : Parser.start settings (Cursor.ofText text) = .ok p) :
    (run settings text).log = .started text :: (ending (Parser.parse p)).events.toList ++
      [.ofOutcome text (run settings text).outcome] := by
  rw [run, hstart]
  rcases hparse : Parser.parse p with ⟨value, q⟩ | ⟨fault, q⟩
  · simp only [hparse]
    rfl
  · simp only [hparse]
    rfl

/-- **What is recorded of the computations is what the machine records** when it runs the code of the
    outline, whatever the text comes to. -/
theorem Evaluation.computations_run (settings : Settings) (text : String) :
    (run settings text).log.filter Event.isComputation =
      records (Outline.ofText settings text).code [] := by
  have hstart := Parser.start_of_pull settings text
  rcases hpull : (Outline.pull (Text.byteLength text.toList) (Placed.ofText text)).ending with
    fault | ahead
  · simp only [hpull] at hstart
    rw [run, hstart, Outline.ofText, Outline.pull_of_error hpull]
    rfl
  · simp only [hpull] at hstart
    obtain ⟨p, hp, hready, rfl, hdepth, _⟩ := hstart
    have hparse : (ending (Parser.parse p)).computations = p.computations ++ records _ [] :=
      recounts_parse hready hdepth
    have hfirst : p.computations = [] := by
      rw [Parser.computations, Parser.events_of_start hp]
      rfl
    rw [hfirst, List.nil_append, Parser.computations] at hparse
    rw [log_of_start hp, Outline.ofText, Outline.bind_of_ok hpull, Outline.code_pull,
      List.nil_append, ← hparse, List.cons_append, List.filter_cons, List.filter_append]
    rcases (run settings text).outcome with fault | value <;> exact List.append_nil _

/-- Applications are computations. -/
theorem Event.filterMap_application?_filter (events : List Event) :
    (events.filter isComputation).filterMap application? = events.filterMap application? := by
  rw [List.filterMap_filter]
  congr 1
  funext event
  cases event <;> rfl

/-- A text with a value has taken in the expression whose value it is.  The machine has run its code,
    and so its operators have been recorded in post-order, and every one of them once. -/
theorem Evaluation.exists_takes_of_ok {text : String} {value : Binary64}
    (h : evaluateWith settings text = .ok value) :
    ∃ e rest, Takes settings.maxDepth text e rest ∧ e.eval = .ok value ∧
      ((run settings text).log.filterMap Event.application?).map Application.operator =
        e.operators ∧
      e.operators.Perm (e.placed.filterMap Placed.operator?) := by
  obtain ⟨maxDepth, leftOver⟩ := settings
  have houtcome := outcome_ofText ⟨maxDepth, leftOver⟩ text
  rw [h] at houtcome
  obtain ⟨hcode, last, hending⟩ := Outline.outcome_eq_ok.1 houtcome
  have hcomputations := computations_run ⟨maxDepth, leftOver⟩ text
  rw [Outline.ofText_eq_bind] at hcode hending hcomputations
  rcases hexpr : (Outline.ofText ⟨maxDepth, .ignored⟩ text).ending with fault | rest
  · rw [Outline.bind_of_error hexpr] at hending
    cases hending
  · obtain ⟨e, htakes, he⟩ := Outline.yields_ofText_ignored.1 ⟨rfl, hexpr⟩
    rw [Outline.bind_of_ok hexpr, Outline.code_trailing, List.append_nil, he] at hcode hcomputations
    refine ⟨e, rest, htakes, ?_, ?_, e.operators_perm⟩
    · exact execute_code_eq_ok.1 hcode
    · rw [← Event.filterMap_application?_filter, hcomputations, operators_records hcode,
        Phrase.operators]

end Calculator
