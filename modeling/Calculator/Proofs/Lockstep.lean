/-
  Two evaluations side by side.

  Problem: two texts that the parser cannot tell apart for a while.  Show that it does the same with
  both for as long as it does not pull more than that, although the places are different, and the
  limits on nesting, and what lies behind.

  1. **Texts** — `Pairing`: which places of the two texts correspond, and whether a closing
     parenthesis of the second may stand where the first one ends.  `Agree n` says of two cursors
     that their next `n` steps hand out the same readings, at places that correspond; behind an end
     nothing need be said.

  2. **Parsers** — `Alike`: two parsers with the same lookahead whose cursors agree, up to so many
     steps counted from the beginning.  Their depths do not matter, since a rule is given the number
     of parentheses that it may open.

  3. **Results** — `InStep`: the same value and parsers that are alike, or faults that correspond.
     Where a closing parenthesis stands for the end, nothing is said once the first parser has found
     a token misplaced: the end is the one thing that it can have missed.

  4. **The crux (`InStep.andThen`)** — the relation goes through sequences.  Reading is never taken
     back, so what the first member has pulled is within the bound if the sequence is, and there the
     second members start alike.

  5. **Result (`Evaluation.inStep`)** — texts that agree on all that the first evaluation pulls are
     pulled from equally often, with outcomes that correspond.
-/
import Calculator.Proofs.Pulling
import Mathlib.Data.List.Forall2

namespace Calculator

variable {α β : Type}

/-! ## What corresponds -/

/-- Two texts, each with the settings of its evaluation and its length. -/
structure Pairing where
  settings : Settings
  settings' : Settings
  finish : Nat
  finish' : Nat
  /-- Which places of the two texts correspond. -/
  place : Nat → Nat → Prop
  /-- Whether a closing parenthesis of the second text may stand where the first one ends. -/
  closes : Prop
  /-- How many more tokens have been read of the second text. -/
  extra : Nat

/-- The same cause, except that a limit on nesting is the one given. -/
def Cause.withLimit (limit : Nat) : Cause → Cause
  | .nestedTooDeep _ => .nestedTooDeep limit
  | cause => cause

theorem Cause.IsArithmetic.withLimit_eq {cause : Cause} (h : cause.IsArithmetic) (limit : Nat) :
    cause.withLimit limit = cause := by
  rcases h with rfl | rfl <;> rfl

namespace Pairing

/-- The same reading, unless the first text ends and the second closes a parenthesis instead. -/
def Matches (P : Pairing) (reading reading' : Reading) : Prop :=
  reading' = reading ∨
    P.closes ∧ reading = .token .endOfInput ∧ reading' = .token .rightParen

/-- Readings that match, at places that correspond. -/
def Same (P : Pairing) (here here' : Placed) : Prop :=
  P.place here.position here'.position ∧ P.Matches here.reading here'.reading

/-- The next so many steps of two cursors hand out the same, up to the end of the first text. -/
def Agree (P : Pairing) : Nat → Cursor → Cursor → Prop
  | 0, _, _ => True
  | n + 1, c, c' => P.Same c.front c'.front ∧
    (c.front.reading ≠ .token .endOfInput → P.Agree n c.next.2 c'.next.2)

/-- Faults at places that correspond and for the same cause, each with the limit of its own text. -/
structure Corresponds (P : Pairing) (fault fault' : Fault) : Prop where
  place : P.place fault.position fault'.position
  cause_eq : fault.cause = fault.cause.withLimit P.settings.maxDepth
  cause_eq' : fault'.cause = fault.cause.withLimit P.settings'.maxDepth

/-- Two parsers that have read equally much of what their texts have in common. -/
structure Level (P : Pairing) (p p' : Parser) : Prop where
  ready : p.Ready P.settings P.finish
  ready' : p'.Ready P.settings' P.finish'
  length_reads : p'.reads.length = p.reads.length + P.extra

/-- Two parsers with the same lookahead, whose cursors agree until the first parser has read so many
    tokens in all. -/
structure Alike (P : Pairing) (bound : Nat) (p p' : Parser) : Prop extends P.Level p p' where
  place : P.place p.position p'.position
  lookahead : P.Matches (.token p.lookahead) (.token p'.lookahead)
  agree : p.lookahead ≠ .endOfInput → P.Agree (bound - p.reads.length) p.cursor p'.cursor

/-- Results of the same actions in two parsers that were alike. -/
inductive InStep (P : Pairing) (bound : Nat) :
    EStateM.Result Fault Parser α → EStateM.Result Fault Parser α → Prop
  | ok {a : α} {q q' : Parser} (h : P.Alike bound q q') : InStep P bound (.ok a q) (.ok a q')
  | error {fault fault' : Fault} {q q' : Parser} (h : P.Corresponds fault fault')
      (hlevel : P.Level q q') : InStep P bound (.error fault q) (.error fault' q')
  | misplaced {expected found : TokenKind} {position : Nat} {q : Parser}
      {result : EStateM.Result Fault Parser α} (h : P.closes) :
      InStep P bound (.error ⟨.unexpected expected found, position⟩ q) result

/-- Two actions that do the same in parsers that are alike, unless more is pulled than the bound
    allows. -/
structure Locksteps (P : Pairing) (action action' : Rule α) : Prop where
  ready : ∀ p, p.Ready P.settings P.finish → (ending (action p)).Ready P.settings P.finish
  grows : ∀ p, p.Ready P.settings P.finish → p.reads.length ≤ pulls (action p)
  inStep : ∀ {bound p p'}, P.Alike bound p p' → pulls (action p) ≤ bound →
    P.InStep bound (action p) (action' p')

variable {P : Pairing} {bound : Nat} {p p' : Parser}

/-! ## Cursors that agree -/

theorem Agree.mono {n m : Nat} (hle : m ≤ n) {c c' : Cursor} (h : P.Agree n c c') :
    P.Agree m c c' := by
  induction m generalizing n c c' with
  | zero => trivial
  | succ m ih =>
    obtain ⟨n, rfl⟩ : ∃ n', n = n' + 1 := ⟨n - 1, by omega⟩
    exact ⟨h.1, fun hne => ih (by omega) (h.2 hne)⟩

/-- Cursors agree on pieces that are the same, and then as far as they agree behind them. -/
theorem agree_of_forall₂ {n : Nat} {front front' : List Lexeme}
    (hfront : List.Forall₂ (fun piece piece' => P.Same piece.placed piece'.placed) front front')
    {c c' : Cursor} {rest rest' : List Lexeme} (hpending : c.pending = front ++ rest)
    (hpending' : c'.pending = front' ++ rest')
    (hrest : ∀ d d' : Cursor, d.pending = rest → d.length = c.length → d'.pending = rest' →
      d'.length = c'.length → P.Agree n d d') :
    P.Agree (front.length + n) c c' := by
  induction hfront generalizing c c' with
  | nil =>
    rw [List.length_nil, Nat.zero_add]
    exact hrest c c' hpending rfl hpending' rfl
  | @cons piece piece' front front' hpiece _ ih =>
    rw [List.length_cons, Nat.add_right_comm]
    refine ⟨?_, fun _ => ?_⟩
    · rw [Cursor.front_of_cons hpending, Cursor.front_of_cons hpending']
      exact hpiece
    · refine ih ?_ ?_ fun d d' hd hlength hd' hlength' => ?_
      · rw [Cursor.pending_next, hpending]
        rfl
      · rw [Cursor.pending_next, hpending']
        rfl
      · rw [Cursor.length_next] at hlength hlength'
        exact hrest d d' hd hlength hd' hlength'

/-- Cursors at the ends of their texts agree. -/
theorem agree_of_nil {c c' : Cursor} (h : c.pending = []) (h' : c'.pending = [])
    (hplace : P.place c.length c'.length) (n : Nat) : P.Agree n c c' := by
  cases n with
  | zero => trivial
  | succ n =>
    rw [Agree, Cursor.front_of_nil h, Cursor.front_of_nil h']
    exact ⟨⟨hplace, .inl rfl⟩, fun hne => absurd rfl hne⟩

/-! ## Lookaheads that match -/

/-- Where the first text has not ended, the lookaheads are equal. -/
theorem Alike.lookahead_eq (h : P.Alike bound p p') (hlook : p.lookahead ≠ .endOfInput) :
    p'.lookahead = p.lookahead := by
  rcases h.lookahead with heq | ⟨_, hend, _⟩
  · exact Reading.token.inj heq
  · exact absurd (Reading.token.inj hend) hlook

/-- Where it has, the second one has ended too or a parenthesis is closed. -/
theorem Alike.lookahead_of_end (h : P.Alike bound p p') (hlook : p.lookahead = .endOfInput) :
    p'.lookahead = .endOfInput ∨ P.closes ∧ p'.lookahead = .rightParen := by
  rcases h.lookahead with heq | ⟨hcloses, _, hclose⟩
  · exact .inl ((Reading.token.inj heq).trans hlook)
  · exact .inr ⟨hcloses, Reading.token.inj hclose⟩

/-- Chains go on with the same operator or end both. -/
theorem Alike.operatorOf_eq (h : P.Alike bound p p') (level : Calculator.Level) :
    p'.operatorOf level = p.operatorOf level := by
  by_cases hlook : p.lookahead = .endOfInput
  · rcases h.lookahead_of_end hlook with hend | ⟨_, hclose⟩
    · rw [Parser.operatorOf, Parser.operatorOf, hlook, hend]
    · rw [Parser.operatorOf, Parser.operatorOf, hlook, hclose]
      rfl
  · rw [Parser.operatorOf, Parser.operatorOf, h.lookahead_eq hlook]

/-- A token that is misplaced in the first text is misplaced in the second one, or nothing is said of
    that. -/
theorem Alike.inStep_misplaced (h : P.Alike bound p p') (expected : TokenKind)
    {result : EStateM.Result Fault Parser α}
    (hresult : p'.lookahead = p.lookahead → result = .error (p'.misplaced expected) p') :
    P.InStep bound (.error (p.misplaced expected) p) result := by
  rcases h.lookahead with heq | ⟨hcloses, _, _⟩
  · have hlook := Reading.token.inj heq
    rw [hresult hlook]
    refine .error ⟨h.place, rfl, ?_⟩ h.toLevel
    rw [Parser.misplaced, Parser.misplaced, hlook]
    rfl
  · exact .misplaced hcloses

/-! ## Sequences -/

/-- **One after the other.**  If the first actions are in step, and the second ones wherever these
    may end well, then so are the sequences. -/
theorem InStep.andThen {result result' : EStateM.Result Fault Parser α}
    {action action' : α → Parser → EStateM.Result Fault Parser β}
    (h : pulls result ≤ bound → P.InStep bound result result')
    (hgrows : ∀ a q, result = .ok a q → q.reads.length ≤ pulls (action a q))
    (hnext : ∀ a q q', result = .ok a q → result' = .ok a q' → P.Alike bound q q' →
      pulls (action a q) ≤ bound → P.InStep bound (action a q) (action' a q'))
    (hbound : pulls (andThen result action) ≤ bound) :
    P.InStep bound (andThen result action) (andThen result' action') := by
  cases result with
  | ok a q =>
    cases h (Nat.le_trans (hgrows a q rfl) hbound) with
    | ok halike => exact hnext a q _ rfl rfl halike hbound
  | error fault q =>
    cases h hbound with
    | error hfault hlevel => exact .error hfault hlevel
    | misplaced hcloses => exact .misplaced hcloses

/-- Sequences do the same, if their members do. -/
theorem Locksteps.andThen {action action' : Rule α} {next next' : α → Rule β}
    (h : P.Locksteps action action') (hnext : ∀ a, P.Locksteps (next a) (next' a)) :
    P.Locksteps (fun p => Calculator.andThen (action p) fun a q => next a q)
      (fun p => Calculator.andThen (action' p) fun a q => next' a q) := by
  refine ⟨fun p hp => ?_, fun p hp => ?_, fun {bound p p'} halike hbound => ?_⟩
  · have hready := h.ready p hp
    rcases hresult : action p with ⟨a, q⟩ | ⟨fault, q⟩
    · rw [hresult] at hready
      exact (hnext a).ready q hready
    · rw [hresult] at hready
      exact hready
  · have hready := h.ready p hp
    have hgrows := h.grows p hp
    rcases hresult : action p with ⟨a, q⟩ | ⟨fault, q⟩
    · rw [hresult] at hready hgrows
      exact Nat.le_trans hgrows ((hnext a).grows q hready)
    · rw [hresult] at hgrows
      exact hgrows
  · refine InStep.andThen (h.inStep halike) (fun a q hresult => ?_) (fun a q q' _ _ => ?_) hbound
    · have hready := h.ready p halike.ready
      rw [hresult] at hready
      exact (hnext a).grows q hready
    · exact (hnext a).inStep

/-- Whatever takes steps is known to be ready and to grow. -/
theorem Locksteps.of_pulls {action action' : Rule α}
    (h : Parser.Pulls P.settings P.finish action)
    (hstep : ∀ {bound p p'}, P.Alike bound p p' → pulls (action p) ≤ bound →
      P.InStep bound (action p) (action' p')) : P.Locksteps action action' := by
  refine ⟨fun p hp => ?_, fun p hp => ?_, hstep⟩
  · obtain ⟨_, hpulled⟩ := h p hp
    exact hpulled.ready
  · obtain ⟨_, hpulled⟩ := h p hp
    exact hpulled.length_reads_le

/-- The depths are of no account. -/
theorem Locksteps.withDepth {action action' : Rule α} (h : P.Locksteps action action')
    (depth depth' : Nat → Nat) :
    P.Locksteps (fun p => action { p with depth := depth p.depth })
      (fun p => action' { p with depth := depth' p.depth }) := by
  refine ⟨fun p hp => h.ready _ (hp.withDepth _), fun p hp => h.grows _ (hp.withDepth (depth p.depth)),
    fun {bound p p'} halike hbound => h.inStep ?_ hbound⟩
  exact ⟨⟨halike.ready.withDepth _, halike.ready'.withDepth _, halike.length_reads⟩, halike.place,
    halike.lookahead, halike.agree⟩

/-! ## Single actions -/

/-- The same value. -/
theorem locksteps_ok (a : α) :
    P.Locksteps (fun p => .ok a p : Rule α) (fun p => .ok a p : Rule α) :=
  .of_pulls (fun _ hp => ⟨0, Parser.pulled_ok hp a⟩) fun halike _ => .ok halike

/-- The tokens in front of two cursors are read. -/
theorem inStep_advance (h : P.Level p p') (hlook : p.lookahead ≠ .endOfInput)
    (hlook' : p'.lookahead ≠ .endOfInput)
    (hagree : P.Agree (bound - p.reads.length) p.cursor p'.cursor)
    (hbound : pulls (Parser.advance p) ≤ bound) :
    P.InStep bound (Parser.advance p) (Parser.advance p') := by
  have hpulled := Parser.pulled_advance h.ready hlook
  have hpulled' := Parser.pulled_advance h.ready' hlook'
  have hone := hpulled.pulls_eq
  obtain ⟨n, hn⟩ : ∃ n, bound - p.reads.length = n + 1 := ⟨bound - p.reads.length - 1, by omega⟩
  rw [hn] at hagree
  obtain ⟨⟨hplace, hmatches⟩, hmore⟩ := hagree
  rcases hfront : p.cursor.front.reading with token | x
  · obtain ⟨token', hfront'⟩ : ∃ token', p'.cursor.front.reading = .token token' := by
      rcases hmatches with heq | ⟨_, _, hclose⟩
      · exact ⟨token, heq.trans hfront⟩
      · exact ⟨.rightParen, hclose⟩
    rw [hfront, hfront'] at hmatches
    rw [Parser.advance_of_token hfront] at hone ⊢
    rw [Parser.advance_of_token hfront'] at hpulled' ⊢
    have hone' : (p'.looking token').reads.length = p'.reads.length + 1 := hpulled'.pulls_eq
    have hone : (p.looking token).reads.length = p.reads.length + 1 := hone
    have hlength := h.length_reads
    refine .ok ⟨⟨h.ready.looking hfront, h.ready'.looking hfront', by omega⟩, hplace, hmatches,
      fun hne => ?_⟩
    have hleft : bound - (p.looking token).reads.length = n := by omega
    rw [hleft]
    refine hmore fun hend => hne ?_
    rw [hfront] at hend
    exact Reading.token.inj hend
  · have hfront' : p'.cursor.front.reading = .stray x := by
      rcases hmatches with heq | ⟨_, hend, _⟩
      · exact heq.trans hfront
      · rw [hfront] at hend
        cases hend
    rw [Parser.advance_of_stray hfront] at hpulled ⊢
    rw [Parser.advance_of_stray hfront'] at hpulled' ⊢
    exact .error ⟨hplace, rfl, rfl⟩ ⟨hpulled.ready, hpulled'.ready, h.length_reads⟩

/-- The same kind of token is consumed, unless it is the end. -/
theorem locksteps_eat (kind : TokenKind) (hkind : kind ≠ .endOfInput) :
    P.Locksteps (Parser.eat kind) (Parser.eat kind) := by
  refine .of_pulls (Parser.pulls_eat kind hkind) fun {bound p p'} halike hbound => ?_
  by_cases hlook : p.lookahead.kind = kind
  · have hne : p.lookahead ≠ .endOfInput := Parser.ne_end_of_kind hlook hkind
    have heq := halike.lookahead_eq hne
    rw [Parser.eat_of_kind_eq hlook] at hbound ⊢
    rw [Parser.eat_of_kind_eq (by rw [heq]; exact hlook)]
    exact inStep_advance halike.toLevel hne (by rw [heq]; exact hne) (halike.agree hne) hbound
  · rw [Parser.eat_of_kind_ne hlook]
    refine halike.inStep_misplaced kind fun heq => ?_
    exact Parser.eat_of_kind_ne (by rw [heq]; exact hlook)

/-- A computation at two places, where the place is only reported. -/
inductive Computes (P : Pairing) : Except Fault α → Except Fault α → Prop
  | ok (a : α) : Computes P (.ok a) (.ok a)
  | error {cause : Cause} {position position' : Nat} (hcause : cause.IsArithmetic)
      (hplace : P.place position position') :
      Computes P (.error ⟨cause, position⟩) (.error ⟨cause, position'⟩)

/-- A number is checked, at places that correspond. -/
theorem computes_checked (x : Binary64) {position position' : Nat}
    (hplace : P.place position position') :
    P.Computes (x.checked position) (x.checked position') := by
  rw [Binary64.checked, Binary64.checked]
  split
  · exact .ok x
  · exact .error (.inr rfl) hplace

/-- An operator is applied, at places that correspond. -/
theorem computes_apply (op : Operator) (left right : Binary64) {position position' : Nat}
    (hplace : P.place position position') :
    P.Computes (op.apply left right position) (op.apply left right position') := by
  cases op with
  | div =>
    rw [Operator.apply, Operator.apply]
    split
    · exact .error (.inl rfl) hplace
    · exact computes_checked _ hplace
  | add => exact computes_checked _ hplace
  | sub => exact computes_checked _ hplace
  | mul => exact computes_checked _ hplace

/-- What is computed is a value for both, or a fault for both. -/
theorem Computes.locksteps {value value' : Except Fault α} (h : P.Computes value value') :
    P.Locksteps (ofExcept value) (ofExcept value') := by
  refine .of_pulls (fun p hp => ⟨0, Parser.pulled_ofExcept hp value fun fault hfault => ?_⟩)
    fun {bound p p'} halike _ => ?_
  · cases h with
    | ok a => cases hfault
    | error hcause hplace =>
      cases hfault
      exact hcause
  · cases h with
    | ok a => exact .ok halike
    | error hcause hplace =>
      refine .error ⟨hplace, ?_, ?_⟩ halike.toLevel
      · exact (hcause.withLimit_eq _).symm
      · exact (hcause.withLimit_eq _).symm

/-- What is recorded is of no account, unless it is a token. -/
theorem Locksteps.recorded {action action' : Rule α} (h : P.Locksteps action action')
    (event event' : Parser → Event) (hevent : ∀ p, (event p).read? = none)
    (hevent' : ∀ p, (event' p).read? = none) :
    P.Locksteps (fun p => action (p.recorded (event p)))
      (fun p => action' (p.recorded (event' p))) := by
  have hreads : ∀ p : Parser, (p.recorded (event p)).reads = p.reads := fun p =>
    Parser.reads_recorded (hevent p)
  have hreads' : ∀ p : Parser, (p.recorded (event' p)).reads = p.reads := fun p =>
    Parser.reads_recorded (hevent' p)
  refine ⟨fun p hp => h.ready _ (hp.recorded _), fun p hp => ?_,
    fun {bound p p'} halike hbound => h.inStep ?_ hbound⟩
  · rw [← hreads]
    exact h.grows _ (hp.recorded _)
  · refine ⟨⟨halike.ready.recorded _, halike.ready'.recorded _, ?_⟩, halike.place,
      halike.lookahead, ?_⟩
    · rw [hreads, hreads']
      exact halike.length_reads
    · rw [hreads]
      exact halike.agree

/-- Nor is it whether a literal is recorded. -/
theorem Locksteps.noted {action action' : Rule α} (h : P.Locksteps action action')
    (literal : Literal) :
    P.Locksteps (fun p => action (p.noted literal)) (fun p => action' (p.noted literal)) := by
  cases literal with
  | exact value => exact h
  | rounded value =>
    exact h.recorded (fun p => .rounded value p.position) (fun p => .rounded value p.position)
      (fun _ => rfl) fun _ => rfl

/-! ## Rules -/

/-- **Rounds do the same**, if their operands do. -/
theorem locksteps_rounds {level : Calculator.Level} {operand : Rule Binary64}
    (hpulls : Parser.Pulls P.settings P.finish operand) (hoperand : P.Locksteps operand operand) :
    ∀ n left, P.Locksteps (Parser.rounds level operand n left)
      (Parser.rounds level operand n left) := by
  intro n
  induction n with
  | zero => exact fun left => locksteps_ok left
  | succ n ih =>
    intro left
    refine .of_pulls (Parser.pulls_rounds hpulls (n + 1) left) fun {bound p p'} halike hbound => ?_
    have hsame := halike.operatorOf_eq level
    rcases hop : p.operatorOf level with _ | op
    · rw [hop] at hsame
      rw [Parser.rounds_of_operatorOf_eq_none hop, Parser.rounds_of_operatorOf_eq_none hsame]
      exact .ok halike
    · rw [hop] at hsame
      rw [Parser.rounds_of_operatorOf hop] at hbound ⊢
      rw [Parser.rounds_of_operatorOf hsame]
      have happly := fun right =>
        ((computes_apply op left right halike.place).locksteps.recorded
          (fun _ => .applied op left right p.position)
          (fun _ => .applied op left right p'.position) (fun _ => rfl) fun _ => rfl).andThen ih
      have hround := (locksteps_eat (P := P) (.operator op) (by simp)).andThen fun _ =>
        hoperand.andThen happly
      exact hround.inStep halike hbound

/-- Chains do the same. -/
theorem locksteps_chain {level : Calculator.Level} {operand : Rule Binary64}
    (hpulls : Parser.Pulls P.settings P.finish operand)
    (hpulls' : Parser.Pulls P.settings' P.finish' operand)
    (hoperand : P.Locksteps operand operand) :
    P.Locksteps (Parser.chain level operand) (Parser.chain level operand) := by
  refine .of_pulls (Parser.pulls_chain hpulls) fun {bound p p'} halike hbound => ?_
  rw [Parser.chain_eq] at hbound ⊢
  rw [Parser.chain_eq]
  have hrounds : ∀ n first, P.Locksteps (Parser.rounds level operand n first)
      (Parser.rounds level operand n first) := locksteps_rounds hpulls hoperand
  refine InStep.andThen (hoperand.inStep halike) (fun first q hfirst => ?_)
    (fun first q q' _ _ hq hbound => ?_) hbound
  · have hready := hoperand.ready p halike.ready
    rw [hfirst] at hready
    exact (hrounds _ first).grows q hready
  · -- more rounds than either needs, so that both have the same number of them
    have hleft : Parser.rounds level operand q.remaining first q =
        Parser.rounds level operand (max q.remaining q'.remaining) first q :=
      Parser.rounds_congr hpulls hq.ready (Nat.le_refl _) (Nat.le_max_left _ _)
    have hright : Parser.rounds level operand q'.remaining first q' =
        Parser.rounds level operand (max q.remaining q'.remaining) first q' :=
      Parser.rounds_congr hpulls' hq.ready' (Nat.le_refl _) (Nat.le_max_right _ _)
    rw [hleft] at hbound ⊢
    rw [hright]
    exact (hrounds _ first).inStep hq hbound

/-- Literals do. -/
theorem locksteps_integer (literal : Literal) :
    P.Locksteps (Parser.integer literal) (Parser.integer literal) := by
  refine .of_pulls (Parser.pulls_integer literal) fun {bound p p'} halike hbound => ?_
  rw [Parser.integer_eq] at hbound ⊢
  rw [Parser.integer_eq]
  have hvalue := computes_checked literal.toBinary64 halike.place
  -- what the literal is worth plays no part
  generalize literal.toBinary64.checked p.position = value at hvalue hbound ⊢
  generalize literal.toBinary64.checked p'.position = value' at hvalue ⊢
  have hliteral := (hvalue.locksteps.noted literal).andThen fun value =>
    (locksteps_eat .integer (by simp)).andThen fun _ => locksteps_ok value
  exact hliteral.inStep halike hbound

/-- Parentheses do, if what stands in them does. -/
theorem locksteps_group {inner : Rule Binary64} (hpulls : Parser.Pulls P.settings P.finish inner)
    (hinner : P.Locksteps inner inner) :
    P.Locksteps (Parser.group inner) (Parser.group inner) := by
  refine .of_pulls (Parser.pulls_group hpulls) fun {bound p p'} halike hbound => ?_
  have hopen := locksteps_eat (P := P) .leftParen (by simp)
  have hinside := hinner.withDepth (fun depth => depth + 1) fun depth => depth + 1
  have hclose := (locksteps_eat (P := P) .rightParen (by simp)).withDepth (fun depth => depth - 1)
    fun depth => depth - 1
  have hgroup := hopen.andThen fun _ => hinside.andThen fun value => hclose.andThen fun _ =>
    locksteps_ok value
  rw [Parser.group_eq] at hbound ⊢
  rw [Parser.group_eq]
  exact hgroup.inStep halike hbound

/-- Factors do, if what begins with a parenthesis does. -/
theorem locksteps_factorBy {parenthesized : Rule Binary64}
    (hpulls : Parser.Pulls P.settings P.finish parenthesized)
    (h : P.Locksteps parenthesized parenthesized) :
    P.Locksteps (Parser.factorBy parenthesized) (Parser.factorBy parenthesized) := by
  refine .of_pulls (Parser.pulls_factorBy hpulls) fun {bound p p'} halike hbound => ?_
  rcases hlook : p.lookahead with literal | op | _ | _ | _
  case integer =>
    have hlook' : p'.lookahead = .integer literal := by
      rw [halike.lookahead_eq (by simp [hlook]), hlook]
    rw [Parser.factorBy_of_integer hlook] at hbound ⊢
    rw [Parser.factorBy_of_integer hlook']
    exact (locksteps_integer literal).inStep halike hbound
  case leftParen =>
    have hlook' : p'.lookahead = .leftParen := by
      rw [halike.lookahead_eq (by simp [hlook]), hlook]
    rw [Parser.factorBy_of_leftParen hlook] at hbound ⊢
    rw [Parser.factorBy_of_leftParen hlook']
    exact h.inStep halike hbound
  all_goals
    rw [Parser.factorBy_of_ne (by simp [hlook]) (by simp [hlook])]
    refine halike.inStep_misplaced .integer fun heq => ?_
    exact Parser.factorBy_of_ne (by simp [heq, hlook]) (by simp [heq, hlook])

/-- An opening parenthesis is refused in both, each with its own limit. -/
theorem locksteps_refuse : P.Locksteps Parser.refuse Parser.refuse := by
  refine .of_pulls (fun p hp => ⟨0, Parser.pulled_error hp rfl⟩) fun {bound p p'} halike _ => ?_
  refine .error ⟨halike.place, ?_, ?_⟩ halike.toLevel
  · rw [← halike.ready.settings_eq]
    rfl
  · rw [← halike.ready'.settings_eq]
    rfl

/-- Expressions do, if their factors do. -/
theorem locksteps_exprBy {factor : Rule Binary64}
    (hpulls : Parser.Pulls P.settings P.finish factor)
    (hpulls' : Parser.Pulls P.settings' P.finish' factor) (h : P.Locksteps factor factor) :
    P.Locksteps (Parser.exprBy factor) (Parser.exprBy factor) :=
  locksteps_chain (Parser.pulls_chain hpulls) (Parser.pulls_chain hpulls')
    (locksteps_chain hpulls hpulls' h)

/-- **Factors do the same**, by induction on how many more parentheses may be opened. -/
theorem locksteps_factorWithin (P : Pairing) :
    ∀ budget, P.Locksteps (Parser.factorWithin budget) (Parser.factorWithin budget) := by
  intro budget
  induction budget with
  | zero => exact locksteps_factorBy (fun p hp => ⟨0, Parser.pulled_error hp rfl⟩) locksteps_refuse
  | succ budget ih =>
    have hpulls := Parser.pulls_factorWithin P.settings P.finish budget
    have hpulls' := Parser.pulls_factorWithin P.settings' P.finish' budget
    exact locksteps_factorBy (Parser.pulls_group (Parser.pulls_exprBy hpulls))
      (locksteps_group (Parser.pulls_exprBy hpulls) (locksteps_exprBy hpulls hpulls' ih))

/-- So do expressions in which the same number of parentheses may be opened. -/
theorem inStep_expr (halike : P.Alike bound p p') (hbudget : p'.budget = p.budget)
    (hbound : pulls (Parser.expr p) ≤ bound) :
    P.InStep bound (Parser.expr p) (Parser.expr p') := by
  have h := locksteps_exprBy (Parser.pulls_factorWithin P.settings P.finish p.budget)
    (Parser.pulls_factorWithin P.settings' P.finish' p.budget) (locksteps_factorWithin P p.budget)
  rw [Parser.expr, Parser.expr, hbudget]
  exact h.inStep halike hbound

/-! ## What is left over -/

/-- Where only the end stands for the end, the lookaheads are equal throughout. -/
theorem Alike.lookahead_eq_of_not_closes (h : P.Alike bound p p') (hcloses : ¬ P.closes) :
    p'.lookahead = p.lookahead := by
  rcases h.lookahead with heq | ⟨hc, _⟩
  · exact Reading.token.inj heq
  · exact absurd hc hcloses

/-- Where both texts have ended, the parsers may look at the ends again. -/
theorem Alike.looking_end (h : P.Alike bound p p') (hend : p.lookahead = .endOfInput)
    (hend' : p'.lookahead = .endOfInput) :
    P.Alike bound (p.looking .endOfInput) (p'.looking .endOfInput) := by
  have hfront := h.ready.front_of_end hend
  have hfront' := h.ready'.front_of_end hend'
  have hplace := h.place
  rw [(h.ready.pending_of_end hend).2, (h.ready'.pending_of_end hend').2] at hplace
  refine ⟨⟨h.ready.looking (by rw [hfront]), h.ready'.looking (by rw [hfront']), ?_⟩, ?_, .inl rfl,
    fun hne => absurd rfl hne⟩
  · rw [Parser.reads_looking, Parser.reads_looking, List.length_append, List.length_append,
      h.length_reads]
    exact Nat.add_right_comm _ _ _
  · rw [Parser.looking, Parser.looking, hfront, hfront']
    exact hplace

/-- What is left over is dealt with in the same way. -/
theorem locksteps_settle (hcloses : ¬ P.closes)
    (htrailing : P.settings'.trailing = P.settings.trailing) (value : Binary64) :
    P.Locksteps (Parser.settle value) (Parser.settle value) := by
  refine ⟨fun p hp => ?_, fun p hp => ?_, fun {bound p p'} halike hbound => ?_⟩
  · obtain ⟨_, _, hready⟩ := Parser.stepped_settle hp value
    exact hready
  · obtain ⟨_, hstepped, _⟩ := Parser.stepped_settle hp value
    exact hstepped.length_reads_le
  have hsame := halike.lookahead_eq_of_not_closes hcloses
  rcases hleft : P.settings.trailing with _ | _
  · rw [Parser.settle, halike.ready.settings_eq, hleft] at hbound ⊢
    rw [Parser.settle, halike.ready'.settings_eq, htrailing, hleft, hsame]
    by_cases hend : p.lookahead = .endOfInput
    · simp only [hend, if_true]
      exact .ok halike
    · simp only [hend, if_false] at hbound ⊢
      have hignored := (locksteps_ok (P := P) value).recorded (fun q => .ignored q.position)
        (fun q => .ignored q.position) (fun _ => rfl) fun _ => rfl
      exact hignored.inStep halike hbound
  · rw [hleft] at htrailing
    by_cases hend : p.lookahead = .endOfInput
    · have hend' := hsame.trans hend
      rw [Parser.settle_of_end halike.ready hleft hend,
        Parser.settle_of_end halike.ready' htrailing hend']
      exact .ok (halike.looking_end hend hend')
    · rw [Parser.settle_of_ne_end halike.ready hleft hend]
      refine halike.inStep_misplaced .endOfInput fun heq => ?_
      exact Parser.settle_of_ne_end halike.ready' htrailing (heq ▸ hend) value

/-- Whole texts are parsed alike. -/
theorem inStep_parse (hcloses : ¬ P.closes) (htrailing : P.settings'.trailing = P.settings.trailing)
    (halike : P.Alike bound p p') (hbudget : p'.budget = p.budget)
    (hbound : pulls (Parser.parse p) ≤ bound) :
    P.InStep bound (Parser.parse p) (Parser.parse p') := by
  rw [Parser.parse_eq] at hbound ⊢
  rw [Parser.parse_eq]
  have hsettle := locksteps_settle hcloses htrailing
  refine InStep.andThen (inStep_expr halike hbudget) (fun value q hresult => ?_)
    (fun value q q' _ _ => (hsettle value).inStep) hbound
  obtain ⟨_, hexpr⟩ := Parser.pulls_expr P.settings P.finish p halike.ready
  rw [hresult] at hexpr
  exact (hsettle value).grows q hexpr.ready_of_ok

end Pairing

/-! ## Evaluations -/

namespace Evaluation

/-- Two texts under the same settings. -/
def pairing (settings : Settings) (text text' : String) (place : Nat → Nat → Prop) : Pairing where
  settings
  settings' := settings
  finish := Text.byteLength text.toList
  finish' := Text.byteLength text'.toList
  place
  closes := False
  extra := 0

variable {settings : Settings} {text text' : String} {place : Nat → Nat → Prop}

/-- The evaluations of texts that agree take the same course, up to a bound. -/
theorem inStep_course {bound : Nat}
    (h : (pairing settings text text' place).Agree bound (Cursor.ofText text)
      (Cursor.ofText text'))
    (hbound : Calculator.pulls (course settings text) ≤ bound) :
    (pairing settings text text' place).InStep bound (course settings text)
      (course settings text') := by
  have hlook : ∀ text, (Parser.fresh settings (Cursor.ofText text)).lookahead ≠ .endOfInput :=
    fun text => Parser.lookahead_fresh_ne settings (Cursor.ofText text)
  have hlevel : (pairing settings text text' place).Level
      (Parser.fresh settings (Cursor.ofText text)) (Parser.fresh settings (Cursor.ofText text')) :=
    ⟨Parser.ready_fresh settings text, Parser.ready_fresh settings text', rfl⟩
  have hfirst := Parser.pulled_fresh settings text
  have hfirst' := Parser.pulled_fresh settings text'
  refine Pairing.InStep.andThen (Pairing.inStep_advance hlevel (hlook text) (hlook text') h)
    (fun _ q hresult => ?_) (fun _ q q' hresult hresult' halike => ?_) hbound
  · rw [hresult] at hfirst
    obtain ⟨_, hparse⟩ := Parser.stepped_parse hfirst.ready_of_ok
    exact hparse.length_reads_le
  · refine Pairing.inStep_parse id rfl halike ?_
    rw [Parser.budget, Parser.budget, hfirst.depth_eq _ _ hresult, hfirst'.depth_eq _ _ hresult',
      halike.ready.settings_eq, halike.ready'.settings_eq]
    rfl

/-- **Evaluations of texts that agree on what the first one pulls are in step**: they pull equally
    much, and come to the same value, or to the same fault at places that correspond. -/
theorem inStep (h : (pairing settings text text' place).Agree (run settings text).pulls
      (Cursor.ofText text) (Cursor.ofText text')) :
    (run settings text').pulls = (run settings text).pulls ∧
      ((∃ value, (run settings text).outcome = .ok value ∧
          (run settings text').outcome = .ok value) ∨
        ∃ cause position position', place position position' ∧
          (run settings text).outcome = .error ⟨cause, position⟩ ∧
          (run settings text').outcome = .error ⟨cause, position'⟩) := by
  obtain ⟨houtcome, _, hpulls, _⟩ := run_eq_course settings text
  obtain ⟨houtcome', _, hpulls', _⟩ := run_eq_course settings text'
  have hstep := inStep_course h (Nat.le_of_eq hpulls.symm)
  rw [houtcome, houtcome', hpulls, hpulls']
  generalize course settings text = result at hstep ⊢
  generalize course settings text' = result' at hstep ⊢
  cases hstep with
  | ok halike => exact ⟨halike.length_reads, .inl ⟨_, rfl, rfl⟩⟩
  | @error fault fault' q q' hfault hlevel =>
    have hcause : fault'.cause = fault.cause := hfault.cause_eq'.trans hfault.cause_eq.symm
    refine ⟨?_, .inr ⟨fault.cause, _, _, hfault.place, rfl, ?_⟩⟩
    · rw [Calculator.pulls, Calculator.pulls, hcause, hlevel.length_reads]
      rfl
    · rw [← hcause]
      rfl
  | misplaced hcloses => exact hcloses.elim

end Evaluation

end Calculator
