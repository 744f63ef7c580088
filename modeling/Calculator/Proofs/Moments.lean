/-
  The parser, moment by moment.

  Problem: a rule of the parser is one action, which takes the state before it to the state behind
  it.  Say what goes on in between: what is done next, which rules have been called and wait for it,
  and what the parser is like at that moment.

  1. **Calls** — `Call`: what can be asked of a parser.  A fault does not end the asking (`after`).

  2. **Moments** — `Moment`: a task, the frames that wait for it, and the parser.  `step` does one
     thing at a time.  Tokens are consumed by the task `eat` and by no other; the depth is raised
     where a frame `inside` begins to wait and lowered where it is given its value.  A fault leaves
     the frames where they are.

  3. **Courses** — `Leads`: one moment comes after another.  A moment has one successor at most, so
     that all that lies behind a moment lies in one line (`Leads.of_result`).

  4. **The crux (`Comes.andThen`)** — an action that follows another is what a frame does with the
     value that it has waited for.  So the course of a sequence is put together from the courses of
     its members, rounds by the tokens that remain and factors by how many parentheses may still be
     opened.

  5. **Result (`exists_course`)** — every call has a course, which ends with what the call comes to.
-/
import Calculator.Proofs.Pulling
import Mathlib.Logic.Relation

namespace Calculator.Parser

/-! ## Calls -/

/-- What can be asked of a parser.  Terms are chains of products, and expressions chains of sums. -/
inductive Call where
  | eat (kind : TokenKind)
  | factor
  | chain (level : Level)
  | parse
  deriving DecidableEq

namespace Call

/-- What the operands of a chain are. -/
def operand : Level → Call
  | .product => .factor
  | .sum => .chain .product

/-- A rule, whose value may also be missing. -/
def valued (rule : Rule Binary64) : Rule (Option Binary64) := do
  let value ← rule
  pure (some value)

theorem valued_eq (rule : Rule Binary64) (p : Parser) :
    valued rule p = andThen (rule p) fun value q => .ok (some value) q := by
  simp only [valued, run_bind, run_pure]

/-- What is done for a call.  Consuming a token gives no value. -/
def run : Call → Rule (Option Binary64)
  | .eat kind => do
    Parser.eat kind
    pure none
  | .factor => valued Parser.factor
  | .chain .product => valued term
  | .chain .sum => valued expr
  | .parse => valued Parser.parse

end Call

/-- What a parser becomes by some calls, one after the other, whether they come to a value or to a
    fault. -/
def after (calls : List Call) (p : Parser) : Parser :=
  calls.foldl (fun q call => ending (call.run q)) p

/-! ## Moments -/

/-- What waits for a value. -/
inductive Frame where
  /-- A chain, for its first operand. -/
  | first (level : Level)
  /-- A chain that has come to `left`, for the operand behind an operator. -/
  | right (level : Level) (op : Operator) (left : Binary64) (position : Nat)
  /-- An open parenthesis, for the expression in it. -/
  | inside
  /-- A whole text, for the expression at its beginning. -/
  | rest
  deriving DecidableEq

/-- What is done behind a token that is consumed. -/
inductive Next where
  | nothing
  | give (value : Binary64)
  /-- An operand is called for, behind an operator. -/
  | operand (level : Level) (op : Operator) (left : Binary64) (position : Nat)
  /-- An expression is called for, behind an opening parenthesis. -/
  | inside
  deriving DecidableEq

/-- What is to be done. -/
inductive Task where
  | call (call : Call)
  | eat (kind : TokenKind) (next : Next)
  /-- A chain goes on from what it has come to. -/
  | goOn (level : Level) (left : Binary64)
  | give (value : Binary64)
  /-- Nothing, since a token has been consumed and that was all. -/
  | done
  | fail (fault : Fault)
  deriving DecidableEq

/-- What a parser is about to do, what waits for it, the last frame first, and the parser itself. -/
structure Moment where
  task : Task
  waiting : List Frame
  parser : Parser
  deriving DecidableEq

/-- A task for a value that may be a fault. -/
def Task.ofExcept (value : Except Fault Binary64) (next : Binary64 → Task) : Task :=
  match value with
  | .ok v => next v
  | .error fault => .fail fault

/-- The moment behind a call. -/
def Call.enter (call : Call) (waiting : List Frame) (p : Parser) : Moment :=
  match call with
  | .eat kind => ⟨.eat kind .nothing, waiting, p⟩
  | .factor =>
    match p.lookahead with
    | .leftParen =>
      if p.depth < p.settings.maxDepth then ⟨.eat .leftParen .inside, waiting, p⟩
      else ⟨.fail ⟨.nestedTooDeep p.settings.maxDepth, p.position⟩, waiting, p⟩
    | .integer literal =>
      ⟨.ofExcept (literal.toBinary64.checked p.position) fun value => .eat .integer (.give value),
        waiting, p.noted literal⟩
    | .operator _ | .rightParen | .endOfInput => ⟨.fail (p.misplaced .integer), waiting, p⟩
  | .chain level => ⟨.call (operand level), .first level :: waiting, p⟩
  | .parse => ⟨.call (.chain .sum), .rest :: waiting, p⟩

/-- The moment behind a token that has been consumed. -/
def Next.follow (next : Next) (waiting : List Frame) (p : Parser) : Moment :=
  match next with
  | .nothing => ⟨.done, waiting, p⟩
  | .give value => ⟨.give value, waiting, p⟩
  | .operand level op left position =>
    ⟨.call (Call.operand level), .right level op left position :: waiting, p⟩
  | .inside => ⟨.call (.chain .sum), .inside :: waiting, { p with depth := p.depth + 1 }⟩

/-- The moment at which a frame has been given what it has waited for. -/
def Frame.resume (frame : Frame) (value : Binary64) (waiting : List Frame) (p : Parser) : Moment :=
  match frame with
  | .first level => ⟨.goOn level value, waiting, p⟩
  | .right level op left position =>
    ⟨.ofExcept (op.apply left value position) fun v => .goOn level v, waiting,
      p.recorded (.applied op left value position)⟩
  | .inside => ⟨.eat .rightParen (.give value), waiting, { p with depth := p.depth - 1 }⟩
  | .rest =>
    match p.settings.trailing with
    | .ignored =>
      ⟨.give value, waiting,
        if p.lookahead = .endOfInput then p else p.recorded (.ignored p.position)⟩
    | .rejected => ⟨.eat .endOfInput (.give value), waiting, p⟩

/-- The next moment, if there is one. -/
def step : Moment → Option Moment
  | ⟨.call call, waiting, p⟩ => some (call.enter waiting p)
  | ⟨.eat kind next, waiting, p⟩ =>
    match eat kind p with
    | .ok _ q => some (next.follow waiting q)
    | .error fault q => some ⟨.fail fault, waiting, q⟩
  | ⟨.goOn level left, waiting, p⟩ =>
    match operatorOf level p with
    | none => some ⟨.give left, waiting, p⟩
    | some op => some ⟨.eat (.operator op) (.operand level op left p.position), waiting, p⟩
  | ⟨.give value, frame :: waiting, p⟩ => some (frame.resume value waiting p)
  | ⟨.give _, [], _⟩ | ⟨.done, _, _⟩ | ⟨.fail _, _, _⟩ => none

/-- One moment comes after another, or is the same. -/
def Leads : Moment → Moment → Prop := Relation.ReflTransGen fun m m' => step m = some m'

/-- The moment at which a call is made. -/
def Call.begin (call : Call) (p : Parser) : Moment := ⟨.call call, [], p⟩

/-- What the call that was made first has come to, at its last moment. -/
def Moment.result? : Moment → Option (EStateM.Result Fault Parser (Option Binary64))
  | ⟨.give value, [], p⟩ => some (.ok (some value) p)
  | ⟨.done, [], p⟩ => some (.ok none p)
  | ⟨.fail fault, _, p⟩ => some (.error fault p)
  | _ => none

/-! ## Steps -/

variable {m m' last : Moment} {waiting : List Frame} {p q : Parser}

/-- **What consuming a token can do**: a token of the wanted kind gives way to the next one, or to
    the fault that stands there instead; a token of another kind stays. -/
theorem eat_cases (kind : TokenKind) (p : Parser) :
    (∃ token, p.lookahead.kind = kind ∧ p.cursor.front.reading = .token token ∧
        eat kind p = .ok () (p.looking token)) ∨
      (∃ x, p.lookahead.kind = kind ∧ p.cursor.front.reading = .stray x ∧
        eat kind p = .error ⟨.strayCharacter x, p.cursor.front.position⟩
          { p with cursor := p.cursor.next.2 }) ∨
      (p.lookahead.kind ≠ kind ∧ eat kind p = .error (p.misplaced kind) p) := by
  by_cases hkind : p.lookahead.kind = kind
  · rcases hfront : p.cursor.front.reading with token | x
    · refine .inl ⟨token, hkind, rfl, ?_⟩
      rw [eat_of_kind_eq hkind, advance_of_token hfront]
    · refine .inr (.inl ⟨x, hkind, rfl, ?_⟩)
      rw [eat_of_kind_eq hkind, advance_of_stray hfront]
  · exact .inr (.inr ⟨hkind, eat_of_kind_ne hkind⟩)

/-- What one step can do. -/
inductive Step : Moment → Moment → Prop
  | enter (call : Call) (waiting : List Frame) (q : Parser) :
      Step ⟨.call call, waiting, q⟩ (call.enter waiting q)
  | consume {token : Token} (next : Next) (waiting : List Frame) (q : Parser)
      (hfront : q.cursor.front.reading = .token token) :
      Step ⟨.eat q.lookahead.kind next, waiting, q⟩ (next.follow waiting (q.looking token))
  | stray {x : Char} (next : Next) (waiting : List Frame) (q : Parser)
      (hfront : q.cursor.front.reading = .stray x) :
      Step ⟨.eat q.lookahead.kind next, waiting, q⟩
        ⟨.fail ⟨.strayCharacter x, q.cursor.front.position⟩, waiting,
          { q with cursor := q.cursor.next.2 }⟩
  | misplaced {kind : TokenKind} (next : Next) (waiting : List Frame) (q : Parser)
      (hkind : q.lookahead.kind ≠ kind) :
      Step ⟨.eat kind next, waiting, q⟩ ⟨.fail (q.misplaced kind), waiting, q⟩
  | finish {level : Level} (left : Binary64) (waiting : List Frame) (q : Parser)
      (hop : operatorOf level q = none) :
      Step ⟨.goOn level left, waiting, q⟩ ⟨.give left, waiting, q⟩
  | round {level : Level} {op : Operator} (left : Binary64) (waiting : List Frame) (q : Parser)
      (hop : operatorOf level q = some op) :
      Step ⟨.goOn level left, waiting, q⟩
        ⟨.eat (.operator op) (.operand level op left q.position), waiting, q⟩
  | resume (frame : Frame) (value : Binary64) (waiting : List Frame) (q : Parser) :
      Step ⟨.give value, frame :: waiting, q⟩ (frame.resume value waiting q)

/-- **Steps do nothing else.** -/
theorem step_cases (h : step m = some m') : Step m m' := by
  obtain ⟨task, waiting, q⟩ := m
  rcases task with call | ⟨kind, next⟩ | ⟨level, left⟩ | value | _ | fault
  case call =>
    cases h
    exact .enter call waiting q
  case eat =>
    rw [step] at h
    rcases eat_cases kind q with ⟨token, rfl, hfront, heat⟩ | ⟨x, rfl, hfront, heat⟩ | ⟨hkind, heat⟩
    · rw [heat] at h
      cases h
      exact .consume next waiting q hfront
    · rw [heat] at h
      cases h
      exact .stray next waiting q hfront
    · rw [heat] at h
      cases h
      exact .misplaced next waiting q hkind
  case goOn =>
    rw [step] at h
    rcases hop : operatorOf level q with _ | op
    · rw [hop] at h
      cases h
      exact .finish left waiting q hop
    · rw [hop] at h
      cases h
      exact .round left waiting q hop
  case give =>
    rcases waiting with _ | ⟨frame, waiting⟩
    · cases h
    · cases h
      exact .resume frame value waiting q
  case done => cases h
  case fail => cases h

/-! ## Courses -/

/-- A call has come to a value, and nothing waits for it; or a token has been consumed, and that was
    all; or there is a fault. -/
theorem Moment.result_cases {result : EStateM.Result Fault Parser (Option Binary64)}
    (h : m.result? = some result) :
    (∃ value q, m = ⟨.give value, [], q⟩ ∧ result = .ok (some value) q) ∨
      (∃ q, m = ⟨.done, [], q⟩ ∧ result = .ok none q) ∨
      ∃ fault waiting q, m = ⟨.fail fault, waiting, q⟩ ∧ result = .error fault q := by
  obtain ⟨task, waiting, q⟩ := m
  rcases task with call | ⟨kind, next⟩ | ⟨level, left⟩ | value | _ | fault
  case give =>
    rcases waiting with _ | ⟨frame, waiting⟩
    · cases h
      exact .inl ⟨value, q, rfl, rfl⟩
    · cases h
  case done =>
    rcases waiting with _ | ⟨frame, waiting⟩
    · cases h
      exact .inr (.inl ⟨q, rfl, rfl⟩)
    · cases h
  case fail =>
    cases h
    exact .inr (.inr ⟨fault, waiting, q, rfl, rfl⟩)
  all_goals cases h

/-- There is nothing behind the last moment. -/
theorem Moment.step_of_result {result : EStateM.Result Fault Parser (Option Binary64)}
    (h : m.result? = some result) : step m = none := by
  rcases Moment.result_cases h with ⟨_, _, rfl, _⟩ | ⟨_, rfl, _⟩ | ⟨_, _, _, rfl, _⟩ <;> rfl

/-- The last moment has the parser that the call leaves behind. -/
theorem Moment.parser_of_result {result : EStateM.Result Fault Parser (Option Binary64)}
    (h : m.result? = some result) : m.parser = ending result := by
  rcases Moment.result_cases h with ⟨_, _, rfl, rfl⟩ | ⟨_, rfl, rfl⟩ | ⟨_, _, _, rfl, rfl⟩ <;> rfl

/-- **There is one course.**  Every moment behind the first one leads to the last one. -/
theorem Leads.of_result {result : EStateM.Result Fault Parser (Option Binary64)}
    (hlast : Leads m last) (hresult : last.result? = some result) (h : Leads m m') :
    Leads m' last := by
  have hunique : Relator.RightUnique fun m m' : Moment => step m = some m' := by
    intro m m₁ m₂ h₁ h₂
    exact Option.some.inj (h₁.symm.trans h₂)
  rcases Relation.ReflTransGen.total_of_right_unique hunique h hlast with hleads | hleads
  · exact hleads
  · -- behind the last moment there is only the last moment
    rcases Relation.ReflTransGen.cases_head hleads with rfl | ⟨m₁, hstep, _⟩
    · exact .refl
    · rw [Moment.step_of_result hresult] at hstep
      cases hstep

/-- From a moment on, while some frames wait, all comes to the given result.  A value is given to
    these frames; a fault is found while others may wait with them. -/
def Comes (m : Moment) (waiting : List Frame) : EStateM.Result Fault Parser Binary64 → Prop
  | .ok value q => Leads m ⟨.give value, waiting, q⟩
  | .error fault q => ∃ inner, Leads m ⟨.fail fault, inner ++ waiting, q⟩

/-- A step may be taken first. -/
theorem Comes.head {result : EStateM.Result Fault Parser Binary64} (hstep : step m = some m')
    (h : Comes m' waiting result) : Comes m waiting result := by
  rcases result with ⟨value, q⟩ | ⟨fault, q⟩
  · exact Relation.ReflTransGen.head hstep h
  · obtain ⟨inner, hinner⟩ := h
    exact ⟨inner, Relation.ReflTransGen.head hstep hinner⟩

/-- **One after the other.**  What follows a value is what the frame does that has waited for it. -/
theorem Comes.andThen {frame : Frame} {result : EStateM.Result Fault Parser Binary64}
    {action : Binary64 → Parser → EStateM.Result Fault Parser Binary64}
    (h : Comes m (frame :: waiting) result)
    (haction : ∀ value q, result = .ok value q →
      Comes (frame.resume value waiting q) waiting (action value q)) :
    Comes m waiting (andThen result action) := by
  rcases result with ⟨value, q⟩ | ⟨fault, q⟩
  · have hresume : Comes ⟨.give value, frame :: waiting, q⟩ waiting (action value q) :=
      (haction value q rfl).head rfl
    rw [andThen_ok]
    rcases hresult : action value q with ⟨value', r⟩ | ⟨fault, r⟩
    · rw [hresult] at hresume
      exact Relation.ReflTransGen.trans h hresume
    · rw [hresult] at hresume
      obtain ⟨inner, hinner⟩ := hresume
      exact ⟨inner, Relation.ReflTransGen.trans h hinner⟩
  · obtain ⟨inner, hinner⟩ := h
    refine ⟨inner ++ [frame], ?_⟩
    rw [List.append_assoc]
    exact hinner

/-- What follows a token is done if the token is consumed. -/
theorem comes_eat {kind : TokenKind} {next : Next}
    {action : Unit → Parser → EStateM.Result Fault Parser Binary64}
    (h : ∀ q, eat kind p = .ok () q → Comes (next.follow waiting q) waiting (action () q)) :
    Comes ⟨.eat kind next, waiting, p⟩ waiting (andThen (eat kind p) action) := by
  rcases heat : eat kind p with ⟨_, q⟩ | ⟨fault, q⟩
  · have hstep : step ⟨.eat kind next, waiting, p⟩ = some (next.follow waiting q) := by
      simp only [step, heat]
    exact (h q heat).head hstep
  · have hstep : step ⟨.eat kind next, waiting, p⟩ = some ⟨.fail fault, waiting, q⟩ := by
      simp only [step, heat]
    exact ⟨[], Relation.ReflTransGen.single hstep⟩

/-- A value is given behind the token that is consumed for it. -/
theorem comes_eat_give (kind : TokenKind) (value : Binary64) (waiting : List Frame) (p : Parser) :
    Comes ⟨.eat kind (.give value), waiting, p⟩ waiting
      (andThen (eat kind p) fun _ q => .ok value q) :=
  comes_eat fun _ _ => .refl

/-- What follows a value is done if it is one. -/
theorem comes_ofExcept {value : Except Fault Binary64} {next : Binary64 → Task}
    {action : Binary64 → Parser → EStateM.Result Fault Parser Binary64}
    (h : ∀ v, value = .ok v → Comes ⟨next v, waiting, p⟩ waiting (action v p)) :
    Comes ⟨.ofExcept value next, waiting, p⟩ waiting
      (andThen ((ofExcept value : Rule Binary64) p) action) := by
  rcases value with fault | v
  · exact ⟨[], .refl⟩
  · exact h v rfl

/-! ## Chains -/

variable {settings : Settings} {finish depth : Nat}

/-- A rule is what a call does, wherever so many parentheses are open. -/
def Performs (settings : Settings) (finish depth : Nat) (call : Call) (rule : Rule Binary64) :
    Prop :=
  ∀ (p : Parser) (waiting : List Frame), p.Ready settings finish → p.depth = depth →
    Comes ⟨.call call, waiting, p⟩ waiting (rule p)

/-- **Rounds**, by induction on their bound, which is not below the number of tokens that remain. -/
theorem comes_rounds {level : Level} {operand : Rule Binary64}
    (hcall : Performs settings finish depth (Call.operand level) operand)
    (hpulls : Pulls settings finish operand) :
    ∀ (n : Nat) (left : Binary64) (p : Parser) (waiting : List Frame), p.Ready settings finish →
      p.depth = depth → p.remaining ≤ n →
      Comes ⟨.goOn level left, waiting, p⟩ waiting (rounds level operand n left p) := by
  have hstop : ∀ (n : Nat) (left : Binary64) (p : Parser) (waiting : List Frame),
      operatorOf level p = none →
      Comes ⟨.goOn level left, waiting, p⟩ waiting (rounds level operand n left p) := by
    intro n left p waiting hop
    have hstep : step ⟨.goOn level left, waiting, p⟩ = some ⟨.give left, waiting, p⟩ := by
      simp only [step, hop]
    rw [rounds_of_operatorOf_eq_none hop]
    exact Relation.ReflTransGen.single hstep
  intro n
  induction n with
  | zero =>
    intro left p waiting _ _ hn
    exact hstop 0 left p waiting (operatorOf_eq_none_of_remaining (Nat.le_zero.1 hn))
  | succ n ih =>
    intro left p waiting h hdepth hn
    rcases hop : operatorOf level p with _ | op
    · exact hstop (n + 1) left p waiting hop
    have hkind := kind_of_operatorOf hop
    have hlook : p.lookahead ≠ .endOfInput := ne_end_of_kind hkind (by simp)
    have hstep : step ⟨.goOn level left, waiting, p⟩ =
        some ⟨.eat (.operator op) (.operand level op left p.position), waiting, p⟩ := by
      simp only [step, hop]
    rw [rounds_of_operatorOf hop]
    refine Comes.head hstep (comes_eat fun q hq => ?_)
    have heat := pulled_advance h hlook
    rw [← eat_of_kind_eq hkind, hq] at heat
    have hused : 1 + q.remaining = p.remaining := heat.remaining_eq
    have hqdepth : q.depth = p.depth := heat.depth_eq _ _ rfl
    refine Comes.andThen (hcall q _ heat.ready (hqdepth.trans hdepth)) fun right r hr => ?_
    obtain ⟨k, hright⟩ := hpulls q heat.ready
    rw [hr] at hright
    have hused' : k + r.remaining = q.remaining := hright.remaining_eq
    have hrdepth : r.depth = q.depth := hright.depth_eq _ _ rfl
    have hready : r.Ready settings finish := hright.ready
    refine comes_ofExcept fun value _ => ih value _ waiting (hready.recorded _) ?_ ?_
    · exact hrdepth.trans (hqdepth.trans hdepth)
    · show r.remaining ≤ n
      omega

/-- Chains, from their operands. -/
theorem performs_chain {level : Level} {operand : Rule Binary64}
    (hcall : Performs settings finish depth (Call.operand level) operand)
    (hpulls : Pulls settings finish operand) :
    Performs settings finish depth (.chain level) (chain level operand) := by
  intro p waiting h hdepth
  rw [chain_eq]
  have hfirst : Comes ⟨.call (.chain level), waiting, p⟩ (.first level :: waiting) (operand p) :=
    (hcall p _ h hdepth).head rfl
  refine hfirst.andThen fun first q hq => ?_
  obtain ⟨_, hpulled⟩ := hpulls p h
  rw [hq] at hpulled
  exact comes_rounds hcall hpulls q.remaining first q waiting hpulled.ready
    ((hpulled.depth_eq _ _ rfl).trans hdepth) (Nat.le_refl _)

/-- Expressions, from their factors. -/
theorem performs_exprBy {factor : Rule Binary64}
    (hcall : Performs settings finish depth .factor factor)
    (hpulls : Pulls settings finish factor) :
    Performs settings finish depth (.chain .sum) (exprBy factor) :=
  performs_chain (performs_chain hcall hpulls) (pulls_chain hpulls)

/-! ## Factors -/

/-- Literals. -/
theorem comes_integer {literal : Literal} (hlook : p.lookahead = .integer literal)
    (waiting : List Frame) : Comes ⟨.call .factor, waiting, p⟩ waiting (integer literal p) := by
  have hstep : step ⟨.call .factor, waiting, p⟩ =
      some ⟨.ofExcept (literal.toBinary64.checked p.position)
        fun value => .eat .integer (.give value), waiting, p.noted literal⟩ := by
    simp only [step, Call.enter, hlook]
  rw [integer_eq]
  exact Comes.head hstep (comes_ofExcept fun value _ => comes_eat_give .integer value waiting _)

/-- Expressions in parentheses, where one more may be opened. -/
theorem comes_group {inner : Rule Binary64}
    (hcall : Performs settings finish (depth + 1) (.chain .sum) inner)
    (h : p.Ready settings finish) (hdepth : p.depth = depth) (hlook : p.lookahead = .leftParen)
    (hlimit : depth < settings.maxDepth) (waiting : List Frame) :
    Comes ⟨.call .factor, waiting, p⟩ waiting (group inner p) := by
  have hlimit' : p.depth < p.settings.maxDepth := by rwa [hdepth, h.settings_eq]
  have hstep : step ⟨.call .factor, waiting, p⟩ = some ⟨.eat .leftParen .inside, waiting, p⟩ := by
    simp only [step, Call.enter, hlook, if_pos hlimit']
  rw [group_eq]
  refine Comes.head hstep (comes_eat fun q hq => ?_)
  have hkind : p.lookahead.kind = .leftParen := by
    rw [hlook]
    rfl
  have heat := pulled_advance h (by rw [hlook]; exact Token.noConfusion)
  rw [← eat_of_kind_eq hkind, hq] at heat
  have hqdepth : q.depth + 1 = depth + 1 := by
    rw [heat.depth_eq _ _ rfl, hdepth]
  have hready : q.Ready settings finish := heat.ready
  exact Comes.andThen (hcall _ _ (hready.withDepth (q.depth + 1)) hqdepth) fun value r _ =>
    comes_eat_give .rightParen value waiting _

/-- Factors, from what begins with a parenthesis. -/
theorem performs_factorBy {parenthesized : Rule Binary64}
    (h : ∀ (p : Parser) (waiting : List Frame), p.Ready settings finish → p.depth = depth →
      p.lookahead = .leftParen → Comes ⟨.call .factor, waiting, p⟩ waiting (parenthesized p)) :
    Performs settings finish depth .factor (factorBy parenthesized) := by
  intro p waiting hp hdepth
  rcases hlook : p.lookahead with literal | op | _ | _ | _
  case integer =>
    rw [factorBy_of_integer hlook]
    exact comes_integer hlook waiting
  case leftParen =>
    rw [factorBy_of_leftParen hlook]
    exact h p waiting hp hdepth hlook
  all_goals
    have hstep : step ⟨.call .factor, waiting, p⟩ =
        some ⟨.fail (p.misplaced .integer), waiting, p⟩ := by
      simp only [step, Call.enter, hlook]
    rw [factorBy_of_ne (by simp [hlook]) (by simp [hlook])]
    exact ⟨[], Relation.ReflTransGen.single hstep⟩

/-- **Factors**, by induction on how many more parentheses may be opened. -/
theorem performs_factorWithin :
    ∀ (budget depth : Nat), settings.maxDepth - depth = budget →
      Performs settings finish depth .factor (factorWithin budget) := by
  intro budget
  induction budget with
  | zero =>
    intro depth hbudget
    refine performs_factorBy fun p waiting h hdepth hlook => ?_
    have hlimit : ¬ p.depth < p.settings.maxDepth := by
      rw [hdepth, h.settings_eq]
      omega
    have hstep : step ⟨.call .factor, waiting, p⟩ =
        some ⟨.fail ⟨.nestedTooDeep p.settings.maxDepth, p.position⟩, waiting, p⟩ := by
      simp only [step, Call.enter, hlook, if_neg hlimit]
    exact ⟨[], Relation.ReflTransGen.single hstep⟩
  | succ budget ih =>
    intro depth hbudget
    refine performs_factorBy fun p waiting h hdepth hlook => ?_
    have hinner := performs_exprBy (ih (depth + 1) (by omega))
      (pulls_factorWithin settings finish budget)
    exact comes_group hinner h hdepth hlook (by omega) waiting

/-! ## All calls -/

/-- As many parentheses may be opened as the parser's settings allow for. -/
theorem Ready.performs_factor (h : p.Ready settings finish) :
    Performs settings finish p.depth .factor (factorWithin p.budget) :=
  performs_factorWithin p.budget p.depth (by rw [budget, h.settings_eq])

/-- Whole texts. -/
theorem Ready.comes_parse (h : p.Ready settings finish) :
    Comes (Call.begin .parse p) [] (parse p) := by
  have hexpr : Comes (Call.begin .parse p) [.rest] (expr p) :=
    (performs_exprBy h.performs_factor (pulls_factorWithin settings finish p.budget) p _ h rfl).head
      rfl
  rw [parse_eq]
  refine hexpr.andThen fun value q _ => ?_
  rw [settle, Frame.resume]
  rcases q.settings.trailing with _ | _
  · exact .refl
  · exact comes_eat_give .endOfInput value [] q

/-- What a rule comes to is what the call for it comes to. -/
theorem Comes.exists_last (rule : Rule Binary64) (h : Comes m [] (rule p)) :
    ∃ last, Leads m last ∧ last.result? = some (Call.valued rule p) := by
  rw [Call.valued_eq]
  rcases hresult : rule p with ⟨value, q⟩ | ⟨fault, q⟩
  · rw [hresult] at h
    exact ⟨_, h, rfl⟩
  · rw [hresult] at h
    obtain ⟨inner, hinner⟩ := h
    exact ⟨_, hinner, rfl⟩

/-- **Every call has a course**, which ends with what the call comes to. -/
theorem exists_course (call : Call) (h : p.Ready settings finish) :
    ∃ last, Leads (call.begin p) last ∧ last.result? = some (call.run p) := by
  have hfactor := h.performs_factor
  have hpulls := pulls_factorWithin settings finish p.budget
  match call with
  | .eat kind =>
    have hbegin : step (Call.begin (.eat kind) p) = some ⟨.eat kind .nothing, [], p⟩ := rfl
    have hrun : (Call.eat kind).run p = Calculator.andThen (eat kind p) fun _ q => .ok none q := by
      simp only [Call.run, run_bind, run_pure]
    rw [hrun]
    rcases heat : eat kind p with ⟨_, q⟩ | ⟨fault, q⟩
    · have hstep : step ⟨.eat kind .nothing, [], p⟩ = some ⟨.done, [], q⟩ := by
        simp only [step, heat, Next.follow]
      exact ⟨_, Relation.ReflTransGen.head hbegin (Relation.ReflTransGen.single hstep), rfl⟩
    · have hstep : step ⟨.eat kind .nothing, [], p⟩ = some ⟨.fail fault, [], q⟩ := by
        simp only [step, heat]
      exact ⟨_, Relation.ReflTransGen.head hbegin (Relation.ReflTransGen.single hstep), rfl⟩
  | .factor => exact Comes.exists_last factor (hfactor p [] h rfl)
  | .chain .product =>
    exact Comes.exists_last term (performs_chain hfactor hpulls p [] h rfl)
  | .chain .sum => exact Comes.exists_last expr (performs_exprBy hfactor hpulls p [] h rfl)
  | .parse => exact Comes.exists_last parse h.comes_parse

end Calculator.Parser
