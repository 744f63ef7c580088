/-
  Evaluating while parsing is parsing first and computing afterwards.

  Problem: the parser applies an operator as soon as its right operand is complete.  Show that it
  comes to what the outline of the text and the machine come to one after the other: the fault of
  the first instruction that fails, or else the fault that ends the outline, or else the number that
  is left on the stack.

  1. **View** — `Parser.ahead`: the pieces from the lookahead on, which is all that the rules of an
     outline are given.  `Parser.Ready` says that the view is faithful: the end of the input is the
     lookahead only when no pieces are left.

  2. **Relation** — `Follows`: a parser that has read some tokens, and an outline whose code is run
     on some stack.  If an instruction fails, the parser has the same fault, and has not read any
     token that the outline has not.  If none fails, both have read the same tokens, and they end
     alike.

  3. **The crux (`Follows.bind`)** — the relation goes through sequences.  The code of a sequence
     fails in its first part, and then the parser has stopped there, whatever else the outline goes
     on to find; or it does not, and then parser and outline stand at the same piece.

  4. **Induction** — rounds on their bound, factors on how many parentheses may still be opened.
-/
import Calculator.Evaluation
import Calculator.Proofs.Outline

namespace Calculator

/-! ## What a parser has before it and behind it -/

/-- The token that was read, if that is what happened. -/
def Event.read? : Event → Option (Token × Nat)
  | .read token position => some (token, position)
  | _ => none

namespace Parser

/-- The tokens that have been read, with their places. -/
def reads (p : Parser) : List (Token × Nat) := p.events.toList.filterMap Event.read?

/-- The pieces from the lookahead on. -/
def ahead (p : Parser) : List Placed :=
  if p.lookahead = .endOfInput then []
  else ⟨.token p.lookahead, p.position⟩ :: p.cursor.pending.map Lexeme.placed

/-- A parser with the given settings, on a text of the given length, that has come to the end of the
    input only if no pieces are left. -/
structure Ready (settings : Settings) (finish : Nat) (p : Parser) : Prop where
  settings_eq : p.settings = settings
  length_eq : p.cursor.length = finish
  pending_of_end : p.lookahead = .endOfInput → p.cursor.pending = [] ∧ p.position = finish
  no_end : ∀ piece ∈ p.cursor.pending, piece.reading ≠ .token .endOfInput

variable {settings : Settings} {finish : Nat} {p : Parser}

theorem ahead_of_end (h : p.lookahead = .endOfInput) : p.ahead = [] := if_pos h

theorem ahead_of_ne {token : Token} (h : p.lookahead = token) (hne : token ≠ .endOfInput) :
    p.ahead = ⟨.token token, p.position⟩ :: p.cursor.pending.map Lexeme.placed := by
  subst h
  exact if_neg hne

/-- Behind the lookahead come the pieces that the cursor has still to hand out. -/
theorem Ready.tail_ahead (h : p.Ready settings finish) :
    p.ahead.tail = p.cursor.pending.map Lexeme.placed := by
  by_cases hend : p.lookahead = .endOfInput
  · rw [ahead_of_end hend, (h.pending_of_end hend).1]
    rfl
  · rw [ahead_of_ne rfl hend]
    rfl

/-- As many tokens remain as there are pieces. -/
theorem Ready.remaining_eq (h : p.Ready settings finish) : p.remaining = p.ahead.length := by
  by_cases hend : p.lookahead = .endOfInput
  · rw [ahead_of_end hend, remaining, if_pos hend, p.cursor.left_eq, (h.pending_of_end hend).1]
    rfl
  · rw [ahead_of_ne rfl hend, remaining, if_neg hend, p.cursor.left_eq, List.length_cons,
      List.length_map]

/-- The fault of a misplaced lookahead is the same for both. -/
theorem Ready.misplaced_eq (h : p.Ready settings finish) (expected : TokenKind) :
    Outline.misplaced finish expected p.ahead = p.misplaced expected := by
  by_cases hend : p.lookahead = .endOfInput
  · rw [ahead_of_end hend, misplaced, hend, (h.pending_of_end hend).2]
    rfl
  · rw [ahead_of_ne rfl hend]
    rfl

/-- The operator that goes on with a chain is the same for both. -/
theorem operator?_ahead (level : Level) (p : Parser) :
    Outline.operator? level p.ahead =
      (operatorOf level p).map fun op => (op, p.position, p.cursor.pending.map Lexeme.placed) := by
  rcases hlook : p.lookahead with literal | op | _ | _ | _
  case operator =>
    rw [ahead_of_ne hlook (by simp), operatorOf, hlook]
    by_cases hlevel : op.level = level
    · simp [Outline.operator?, Token.kind, TokenKind.operator?, Option.filter, hlevel]
    · simp [Outline.operator?, Token.kind, TokenKind.operator?, Option.filter, hlevel]
  case endOfInput =>
    rw [ahead_of_end hlook, operatorOf, hlook]
    rfl
  all_goals
    rw [ahead_of_ne hlook (by simp), operatorOf, hlook]
    rfl

end Parser

/-! ## Running actions of the parser -/

variable {α β γ δ : Type}

/-- What becomes of a result in the parser: an action follows a value, nothing follows a fault. -/
def andThen (result : EStateM.Result Fault Parser α)
    (action : α → Parser → EStateM.Result Fault Parser γ) : EStateM.Result Fault Parser γ :=
  match result with
  | .ok a q => action a q
  | .error fault q => .error fault q

/-- The parser with one more event in its record. -/
def Parser.recorded (p : Parser) (event : Event) : Parser :=
  { p with events := p.events.push event }

theorem andThen_ok (a : α) (q : Parser) (action : α → Parser → EStateM.Result Fault Parser γ) :
    andThen (.ok a q) action = action a q := rfl

theorem run_bind (x : Rule α) (f : α → Rule γ) (p : Parser) :
    (x >>= f) p = andThen (x p) fun a q => f a q := by
  show EStateM.bind x f p = _
  rw [EStateM.bind.eq_def]
  cases x p <;> rfl

theorem run_pure (a : α) (p : Parser) : (pure a : Rule α) p = .ok a p := rfl

theorem run_get (p : Parser) : (get : Rule Parser) p = .ok p p := rfl

theorem run_modify (f : Parser → Parser) (p : Parser) :
    (modify f : Rule Unit) p = .ok () (f p) := rfl

theorem run_record (event : Event) (p : Parser) :
    Parser.record event p = .ok () (p.recorded event) := rfl

theorem Parser.reads_recorded {p : Parser} {event : Event} (h : event.read? = none) :
    (p.recorded event).reads = p.reads := by
  simp [reads, recorded, h]

/-! ## The relation -/

/-- The result of a parser that has read `reads` follows an outline, whose code is run on `stack`,
    in all that the machine lets happen. -/
def Follows (reads : List (Token × Nat)) (stack : List Binary64) (o : Outline β)
    (result : EStateM.Result Fault Parser α) (post : α → Parser → β → List Binary64 → Prop) :
    Prop :=
  match execute o.code stack with
  | .error (.fault fault) => ∃ q, result = .error fault q ∧ q.reads <+: reads ++ o.pulled
  | .error .underflow => False
  | .ok reached =>
    match o.ending with
    | .error fault => ∃ q, result = .error fault q ∧ q.reads = reads ++ o.pulled
    | .ok b => ∃ a q, result = .ok a q ∧ q.reads = reads ++ o.pulled ∧ post a q b reached

/-- **One after the other.**  If the first actions follow each other, and so do the second ones from
    wherever the first may end well, then so do the sequences. -/
theorem Follows.bind {reads : List (Token × Nat)} {stack : List Binary64} {o : Outline β}
    {next : β → Outline δ} {result : EStateM.Result Fault Parser α}
    {action : α → Parser → EStateM.Result Fault Parser γ}
    {mid : α → Parser → β → List Binary64 → Prop} {post : γ → Parser → δ → List Binary64 → Prop}
    (hfirst : Follows reads stack o result mid)
    (hsecond : ∀ a q b reached, mid a q b reached →
      Follows q.reads reached (next b) (action a q) post) :
    Follows reads stack (o >>= next) (andThen result action) post := by
  unfold Follows at hfirst
  rcases hrun : execute o.code stack with halt | reached
  · -- the machine stops in the first part, and the outline may go on
    rw [hrun] at hfirst
    rcases halt with fault | _
    · obtain ⟨q, rfl, hreads⟩ := hfirst
      rcases hending : o.ending with fault' | b
      · rw [Outline.bind_of_error hending, Follows, hrun]
        exact ⟨q, rfl, hreads⟩
      · rw [Outline.bind_of_ok hending, Follows, execute_append, hrun]
        refine ⟨q, rfl, hreads.trans ?_⟩
        rw [← List.append_assoc]
        exact List.prefix_append _ _
    · exact hfirst.elim
  · rw [hrun] at hfirst
    rcases hending : o.ending with fault | b
    · rw [hending] at hfirst
      obtain ⟨q, rfl, hreads⟩ := hfirst
      rw [Outline.bind_of_error hending, Follows, hrun]
      exact ⟨q, rfl, hreads⟩
    · rw [hending] at hfirst
      obtain ⟨a, q, rfl, hreads, hmid⟩ := hfirst
      have hnext := hsecond a q b reached hmid
      rw [hreads] at hnext
      rw [Outline.bind_of_ok hending, Follows, execute_append, hrun]
      simp only [Follows, List.append_assoc] at hnext
      exact hnext

/-- The parser gives back another value than the one it has got last. -/
theorem Follows.map {reads : List (Token × Nat)} {stack : List Binary64} {o : Outline β}
    {result : EStateM.Result Fault Parser α} {f : α → γ}
    {mid : α → Parser → β → List Binary64 → Prop} {post : γ → Parser → β → List Binary64 → Prop}
    (h : Follows reads stack o result mid)
    (hpost : ∀ a q b reached, mid a q b reached → post (f a) q b reached) :
    Follows reads stack o (andThen result fun a q => .ok (f a) q) post := by
  unfold Follows at h ⊢
  rcases hrun : execute o.code stack with (fault | _) | reached
  · rw [hrun] at h
    obtain ⟨q, rfl, hreads⟩ := h
    exact ⟨q, rfl, hreads⟩
  · rw [hrun] at h
    exact h
  · rw [hrun] at h
    rcases hending : o.ending with fault | b
    · rw [hending] at h
      obtain ⟨q, rfl, hreads⟩ := h
      exact ⟨q, rfl, hreads⟩
    · rw [hending] at h
      obtain ⟨a, q, rfl, hreads, hmid⟩ := h
      exact ⟨f a, q, rfl, hreads, hpost a q b reached hmid⟩

/-- Where an action that leaves `left a` on the stack ends well: parser and outline stand at the
    same piece. -/
def Arrives (settings : Settings) (finish : Nat) (left : α → List Binary64) (a : α) (q : Parser)
    (rest : List Placed) (reached : List Binary64) : Prop :=
  q.Ready settings finish ∧ q.ahead = rest ∧ reached = left a

/-- A rule of the parser follows one of the outline, from wherever they stand, and leaves its value
    on the stack. -/
def Realizes (settings : Settings) (finish : Nat) (rule : Rule Binary64) (outline : Outline.Rule) :
    Prop :=
  ∀ (p : Parser) (base : List Binary64), p.Ready settings finish →
    Follows p.reads base (outline p.ahead) (rule p) (Arrives settings finish (· :: base))

variable {settings : Settings} {finish : Nat} {p : Parser} {stack base : List Binary64}
  {post : α → Parser → β → List Binary64 → Prop}

/-! ## Single actions -/

/-- Nothing happens. -/
theorem follows_pure {a : α} {b : β} (h : post a p b stack) :
    Follows p.reads stack (pure b) (.ok a p) post :=
  ⟨a, p, rfl, (List.append_nil _).symm, h⟩

/-- The same fault for both. -/
theorem follows_fail {fault : Fault} :
    Follows p.reads stack (Outline.fail fault : Outline β) (.error fault p) post :=
  ⟨p, rfl, (List.append_nil _).symm⟩

/-- The parser computes what the instruction leaves on the stack. -/
theorem follows_emit {instruction : Instruction} {value : Except Fault Binary64}
    (h : instruction.run stack = deliver value base) :
    Follows p.reads stack (Outline.emit instruction) ((ofExcept value : Rule Binary64) p)
      fun v q _ reached => q = p ∧ reached = v :: base := by
  unfold Follows
  rw [Outline.emit, execute_singleton, h]
  rcases value with fault | v
  · exact ⟨p, rfl, List.prefix_append _ _⟩
  · exact ⟨v, p, rfl, (List.append_nil _).symm, rfl, rfl⟩

/-- The next piece becomes the lookahead of both, unless it is a stray. -/
theorem follows_advance (h : p.Ready settings finish) :
    Follows p.reads stack (Outline.pull finish p.ahead.tail) (Parser.advance p)
      (Arrives settings finish fun _ => stack) := by
  rw [h.tail_ahead, Parser.advance]
  rcases hpending : p.cursor.pending with _ | ⟨piece, rest⟩
  · rw [Cursor.next_of_nil hpending, h.length_eq]
    refine ⟨(), _, rfl, ?_, ?_, rfl, rfl⟩
    · simp [Parser.reads, Outline.pull, Event.read?, Cursor.ofPieces]
    · exact ⟨h.settings_eq, rfl, fun _ => ⟨rfl, rfl⟩, fun piece hpiece => by cases hpiece⟩
  · have hpiece := h.no_end piece (hpending ▸ List.mem_cons_self)
    have hrest : ∀ piece ∈ rest, piece.reading ≠ .token .endOfInput :=
      fun piece hmem => h.no_end piece (hpending ▸ List.mem_cons_of_mem _ hmem)
    rw [Cursor.next_of_cons hpending]
    rcases hreading : piece.reading with token | c
    · have hne : token ≠ .endOfInput := by
        rintro rfl
        exact hpiece hreading
      simp only [List.map_cons, Lexeme.placed, hreading]
      refine ⟨(), _, rfl, ?_, ?_, ?_, rfl⟩
      · simp [Parser.reads, Outline.pull, Event.read?, Cursor.ofPieces]
      · exact ⟨h.settings_eq, h.length_eq, fun hend => absurd hend hne, hrest⟩
      · exact Parser.ahead_of_ne rfl hne
    · simp only [List.map_cons, Lexeme.placed, hreading]
      exact ⟨_, rfl, (List.append_nil _).symm⟩

/-- A token of the right kind is consumed. -/
theorem follows_eat {kind : TokenKind} (h : p.Ready settings finish)
    (hkind : p.lookahead.kind = kind) :
    Follows p.reads stack (Outline.pull finish p.ahead.tail) (Parser.eat kind p)
      (Arrives settings finish fun _ => stack) := by
  rw [Parser.eat_of_kind_eq hkind]
  exact follows_advance h

/-- A token of another kind is misplaced for both. -/
theorem follows_misplaced {kind : TokenKind} (h : p.Ready settings finish) :
    Follows p.reads stack (Outline.fail (Outline.misplaced finish kind p.ahead) : Outline β)
      (.error (p.misplaced kind) p) post := by
  rw [h.misplaced_eq]
  exact follows_fail

/-- The closing parenthesis. -/
theorem follows_close (h : p.Ready settings finish) :
    Follows p.reads stack (Outline.close finish p.ahead) (Parser.eat .rightParen p)
      (Arrives settings finish fun _ => stack) := by
  by_cases hclose : p.lookahead = .rightParen
  · have hpull : Outline.close finish p.ahead = Outline.pull finish p.ahead.tail := by
      rw [Parser.ahead_of_ne hclose (by simp)]
      rfl
    rw [hpull]
    exact follows_eat h (by rw [hclose]; rfl)
  · have hmisplaced : Outline.close finish p.ahead =
        Outline.fail (Outline.misplaced finish .rightParen p.ahead) := by
      rw [Outline.close.eq_def]
      split
      · next position behind hahead =>
        by_cases hend : p.lookahead = .endOfInput
        · rw [Parser.ahead_of_end hend] at hahead
          cases hahead
        · rw [Parser.ahead_of_ne rfl hend] at hahead
          simp only [List.cons.injEq, Placed.mk.injEq, Reading.token.injEq] at hahead
          exact absurd hahead.1.1 hclose
      · rfl
    have hkind : p.lookahead.kind ≠ .rightParen := by
      rcases hlook : p.lookahead with literal | op | _ | _ | _ <;> simp_all [Token.kind]
    rw [hmisplaced, Parser.eat_of_kind_ne hkind]
    exact follows_misplaced h

/-! ## Records -/

/-- Recording moves nothing. -/
theorem Parser.Ready.recorded (h : p.Ready settings finish) (event : Event) :
    (p.recorded event).Ready settings finish :=
  ⟨h.settings_eq, h.length_eq, h.pending_of_end, h.no_end⟩

/-- Nor does changing the depth. -/
theorem Parser.Ready.withDepth (h : p.Ready settings finish) (depth : Nat) :
    ({ p with depth } : Parser).Ready settings finish :=
  ⟨h.settings_eq, h.length_eq, h.pending_of_end, h.no_end⟩

/-! ## Rules -/

/-- A round, taken apart into its actions. -/
theorem Parser.rounds_of_operatorOf {level : Level} {operand : Rule Binary64} {n : Nat}
    {left : Binary64} {op : Operator} (h : operatorOf level p = some op) :
    rounds level operand (n + 1) left p =
      andThen (eat (.operator op) p) fun _ q =>
      andThen (operand q) fun right q =>
      andThen ((ofExcept (op.apply left right p.position) : Rule Binary64)
        (q.recorded (.applied op left right p.position))) fun value q =>
      rounds level operand n value q := by
  simp only [rounds, run_bind, run_get, andThen_ok, h, run_record]

/-- The lookahead is of the kind of the operator that it is. -/
theorem Parser.kind_of_operatorOf {level : Level} {op : Operator}
    (h : operatorOf level p = some op) : p.lookahead.kind = .operator op := by
  rw [operatorOf, Option.filter_eq_some_iff] at h
  rcases hlook : p.lookahead with literal | op' | _ | _ | _ <;>
    simp_all [Token.kind, TokenKind.operator?]

/-- **Rounds follow rounds.**  What the chain has come to lies on the stack when a round begins. -/
theorem rounds_realizes {level : Level} {operand : Rule Binary64} {outline : Outline.Rule}
    (hoperand : Realizes settings finish operand outline) :
    ∀ (n : Nat) (left : Binary64) (p : Parser) (base : List Binary64), p.Ready settings finish →
      Follows p.reads (left :: base) (Outline.rounds finish level outline n p.ahead)
        (Parser.rounds level operand n left p) (Arrives settings finish (· :: base)) := by
  intro n
  induction n with
  | zero =>
    intro left p base h
    exact follows_pure ⟨h, rfl, rfl⟩
  | succ n ih =>
    intro left p base h
    rw [Outline.rounds, Parser.operator?_ahead]
    rcases hop : Parser.operatorOf level p with _ | op
    · rw [Parser.rounds_of_operatorOf_eq_none hop]
      exact follows_pure ⟨h, rfl, rfl⟩
    · rw [Parser.rounds_of_operatorOf hop, Option.map_some, ← h.tail_ahead]
      refine Follows.bind (follows_eat h (Parser.kind_of_operatorOf hop)) ?_
      rintro _ q _ _ ⟨hq, rfl, rfl⟩
      refine Follows.bind (hoperand q (left :: base) hq) ?_
      rintro right r _ _ ⟨hr, rfl, rfl⟩
      -- the record is written before the operator is applied, and no token is read for it
      have hreads : (r.recorded (.applied op left right p.position)).reads = r.reads :=
        Parser.reads_recorded rfl
      rw [← hreads]
      refine Follows.bind (follows_emit (Instruction.run_apply op p.position left right base)) ?_
      rintro value _ _ _ ⟨rfl, rfl⟩
      exact ih value _ base (hr.recorded _)

/-- Chains follow chains. -/
theorem chain_realizes {level : Level} {operand : Rule Binary64} {outline : Outline.Rule}
    (hoperand : Realizes settings finish operand outline) :
    Realizes settings finish (Parser.chain level operand)
      (Outline.chain finish level outline) := by
  intro p base h
  simp only [Parser.chain, run_bind, run_get, andThen_ok]
  refine Follows.bind (hoperand p base h) ?_
  rintro first q _ _ ⟨hq, rfl, rfl⟩
  simp only [hq.remaining_eq]
  exact rounds_realizes hoperand _ first q base hq

/-- Expressions follow expressions. -/
theorem exprBy_realizes {factor : Rule Binary64} {outline : Outline.Rule}
    (h : Realizes settings finish factor outline) :
    Realizes settings finish (Parser.exprBy factor) (Outline.exprBy finish outline) :=
  chain_realizes (chain_realizes h)

/-- The literal is written into the record if it is rounded. -/
def Parser.noted (p : Parser) : Literal → Parser
  | .exact _ => p
  | .rounded value => p.recorded (.rounded value p.position)

/-- A literal, taken apart into its actions. -/
theorem Parser.integer_eq (literal : Literal) (p : Parser) :
    integer literal p =
      andThen ((ofExcept (literal.toBinary64.checked p.position) : Rule Binary64)
        (p.noted literal)) fun value q =>
      andThen (eat .integer q) fun _ q => .ok value q := by
  rw [integer, run_bind, run_get, andThen_ok]
  -- what the literal is worth plays no part
  generalize literal.toBinary64.checked p.position = value
  cases literal <;> simp only [run_bind, run_record, run_pure, andThen_ok, noted]

/-- Writing a literal into the record reads nothing and moves nothing. -/
theorem Parser.Ready.noted (h : p.Ready settings finish) (literal : Literal) :
    (p.noted literal).Ready settings finish ∧ (p.noted literal).reads = p.reads ∧
      (p.noted literal).ahead = p.ahead ∧ (p.noted literal).lookahead = p.lookahead := by
  cases literal with
  | exact value => exact ⟨h, rfl, rfl, rfl⟩
  | rounded value => exact ⟨h.recorded _, reads_recorded rfl, rfl, rfl⟩

/-- A literal is checked before the token behind it is read. -/
theorem follows_integer {literal : Literal} (h : p.Ready settings finish)
    (hlook : p.lookahead = .integer literal) :
    Follows p.reads base
      (do Outline.emit (.push literal p.position); Outline.pull finish p.ahead.tail)
      (Parser.integer literal p) (Arrives settings finish (· :: base)) := by
  obtain ⟨hready, hreads, hahead, hsame⟩ := h.noted literal
  rw [Parser.integer_eq, ← hreads, ← hahead]
  refine Follows.bind (follows_emit (Instruction.run_push _ _ base)) ?_
  rintro value _ _ _ ⟨rfl, rfl⟩
  have hkind : (p.noted literal).lookahead.kind = .integer := by
    rw [hsame, hlook]
    rfl
  exact Follows.map (follows_eat hready hkind) fun _ _ _ _ => id

/-- An expression in parentheses, taken apart into its actions. -/
theorem Parser.group_eq (inner : Rule Binary64) (p : Parser) :
    group inner p =
      andThen (eat .leftParen p) fun _ q =>
      andThen (inner { q with depth := q.depth + 1 }) fun value q =>
      andThen (eat .rightParen { q with depth := q.depth - 1 }) fun _ q => .ok value q := by
  simp only [group, run_bind, run_modify, run_pure, andThen_ok]

/-- An expression in parentheses is parsed behind the opening one and up to the closing one. -/
theorem follows_group {inner : Rule Binary64} {outline : Outline.Rule}
    (hinner : Realizes settings finish inner outline) (h : p.Ready settings finish)
    (hlook : p.lookahead = .leftParen) :
    Follows p.reads base (Outline.group finish outline p.ahead.tail) (Parser.group inner p)
      (Arrives settings finish (· :: base)) := by
  rw [Parser.group_eq]
  refine Follows.bind (follows_eat h (by rw [hlook]; rfl)) ?_
  rintro _ q _ reached ⟨hq, rfl, rfl⟩
  refine Follows.bind (hinner _ reached (hq.withDepth (q.depth + 1))) ?_
  rintro value r _ _ ⟨hr, rfl, rfl⟩
  exact Follows.map (follows_close (hr.withDepth (r.depth - 1))) fun _ _ _ _ => id

/-- Factors follow factors, if what begins with a parenthesis does. -/
theorem factorBy_realizes {parenthesized : Rule Binary64} {outline : Nat → Outline.Rule}
    (hparenthesized : ∀ (p : Parser) (base : List Binary64), p.Ready settings finish →
      p.lookahead = .leftParen →
      Follows p.reads base (outline p.position p.ahead.tail) (parenthesized p)
        (Arrives settings finish (· :: base))) :
    Realizes settings finish (Parser.factorBy parenthesized)
      (Outline.factorBy finish outline) := by
  intro p base h
  rcases hlook : p.lookahead with literal | op | _ | _ | _
  case integer =>
    have houtline : Outline.factorBy finish outline p.ahead =
        (do Outline.emit (.push literal p.position); Outline.pull finish p.ahead.tail) := by
      rw [Parser.ahead_of_ne hlook (by simp)]
      rfl
    rw [houtline, Parser.factorBy_of_integer hlook]
    exact follows_integer h hlook
  case leftParen =>
    have houtline : Outline.factorBy finish outline p.ahead =
        outline p.position p.ahead.tail := by
      rw [Parser.ahead_of_ne hlook (by simp)]
      rfl
    rw [houtline, Parser.factorBy_of_leftParen hlook]
    exact hparenthesized p base h hlook
  all_goals
    have hfactor : Parser.factorBy parenthesized p = .error (p.misplaced .integer) p := by
      simp only [Parser.factorBy, run_bind, run_get, andThen_ok, hlook]
      rfl
    have houtline : Outline.factorBy finish outline p.ahead =
        Outline.fail (Outline.misplaced finish .integer p.ahead) := by
      first
        | rw [Parser.ahead_of_end hlook]; rfl
        | rw [Parser.ahead_of_ne hlook (by simp)]; rfl
    rw [hfactor, houtline]
    exact follows_misplaced h

/-- **Factors follow factors**, by induction on how many more parentheses may be opened. -/
theorem factorWithin_realizes (settings : Settings) (finish : Nat) :
    ∀ budget, Realizes settings finish (Parser.factorWithin budget)
      (Outline.factorWithin settings.maxDepth finish budget) := by
  intro budget
  induction budget with
  | zero =>
    refine factorBy_realizes fun p base h _ => ?_
    have hrefuse : Parser.refuse p =
        .error ⟨.nestedTooDeep settings.maxDepth, p.position⟩ p := by
      rw [← h.settings_eq]
      rfl
    rw [hrefuse]
    exact follows_fail
  | succ budget ih =>
    exact factorBy_realizes fun p base h hlook => follows_group (exprBy_realizes ih) h hlook

end Calculator
