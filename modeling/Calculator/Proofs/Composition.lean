/-
  Texts in parentheses.

  Problem: put a text in parentheses, or two of them with an operator between them, and allow one
  more pair of parentheses.  Show that the outcome of the whole is made of the outcomes of the
  texts, whatever these are.

  1. **Pieces (`Lexeme.scan_parenthesized`)** — parentheses meet no digits, so the pieces of a text
     are those of the whole from the opening one to the closing one, moved on.

  2. **The crux (`Parser.Facing.inStep`)** — inside its parentheses a text is parsed as it is by
     itself, each place moved on, with the closing parenthesis in place of the end.  The same number
     of further parentheses may be opened, since both the limit and the depth are greater by one.

  3. **One text (`Parser.Facing.group_of_error`, `Parser.Facing.group_of_ok`)** — a fault of the text
     is the fault of the group, with its place moved on.  If the text has a value instead, the parser
     has come exactly to the closing parenthesis: as many steps have been taken as the text has
     pieces, and one more.

  4. **Result (`evaluateWith_composed`)** — a group followed by nothing is a whole expression; one
     followed by an operator and another group is one round of a chain of either level.
-/
import Calculator.Proofs.Concatenation
import Calculator.Proofs.Lockstep

namespace Calculator

open Text

/-! ## Specification -/

/-- A text in parentheses. -/
def parenthesized (text : String) : String := "(" ++ text ++ ")"

/-- Two texts in parentheses with an operator between them. -/
def composed (op : Operator) (left right : String) : String :=
  parenthesized left ++ String.singleton op.symbol ++ parenthesized right

/-- Whether a token is at fault for where it stands. -/
def Cause.IsMisplacement : Cause → Prop
  | .unexpected _ _ => True
  | .strayCharacter _ | .nestedTooDeep _ | .divisionByZero | .overflow => False

/-- A fault of a text that stands so many bytes further on in another one, where the limit on nesting
    is the one given. -/
def Fault.moved (limit bytes : Nat) (fault : Fault) : Fault :=
  ⟨fault.cause.withLimit limit, bytes + fault.position⟩

/-! ## Pieces -/

/-- **A text keeps its pieces in parentheses.** -/
theorem Lexeme.scan_parenthesized (offset : Nat) (text more : List Char) :
    scan offset ('(' :: (text ++ ')' :: more)) =
      ⟨offset, offset + 1, .token .leftParen⟩ ::
        ((scan 0 text).map (shift (offset + 1)) ++
          ⟨offset + 1 + byteLength text, offset + 1 + byteLength text + 1, .token .rightParen⟩ ::
            scan (offset + 1 + byteLength text + 1) more) := by
  have hopen : ('(', Token.leftParen) ∈ Token.symbols := by simp [Token.symbols]
  have hclose : (')', Token.rightParen) ∈ Token.symbols := by simp [Token.symbols]
  have hfresh : Fresh text (')' :: more) := fresh_of_head (by simp)
  have hmove := scan_add (offset + 1) 0 text
  rw [Nat.add_zero] at hmove
  rw [scan_symbol hopen]
  show _ :: scan (offset + 1) _ = _
  rw [scan_append _ hfresh, scan_symbol hclose, hmove]
  rfl

namespace Parser

variable {settings : Settings} {finish bytes limit : Nat} {text : String} {rest : List Lexeme}
  {level : Level} {operand : Rule Binary64} {p q r : Parser} {left value : Binary64}
  {fault : Fault} {outcome : Except Fault Binary64} {op : Operator}

/-! ## A text in its parentheses -/

/-- A parser that looks at an opening parenthesis.  Behind it come the pieces of a text, so many
    bytes further on than in the text itself, the closing parenthesis and the rest. -/
structure Facing (settings : Settings) (finish bytes : Nat) (text : String) (rest : List Lexeme)
    (p : Parser) : Prop where
  ready : p.Ready settings finish
  lookahead_eq : p.lookahead = .leftParen
  pending_eq : p.cursor.pending =
    (Lexeme.scan 0 text.toList).map (Lexeme.shift bytes) ++
      ⟨bytes + byteLength text.toList, bytes + byteLength text.toList + 1, .token .rightParen⟩ :: rest

/-- A text up to the end of its expression, where so many parentheses may be opened. -/
def alone (limit : Nat) (text : String) : EStateM.Result Fault Parser Binary64 :=
  andThen (advance (fresh ⟨limit, .rejected⟩ (Cursor.ofText text))) fun _ q =>
    exprBy (factorWithin limit) q

/-- What stands in parentheses, up to the end of its expression. -/
def inside (limit : Nat) (p : Parser) : EStateM.Result Fault Parser Binary64 :=
  andThen (advance p) fun _ q => exprBy (factorWithin limit) { q with depth := q.depth + 1 }

/-- A text by itself, and the same text in parentheses under other settings. -/
def enclosing (limit bytes : Nat) (text : String) (settings : Settings) (finish : Nat) (p : Parser) :
    Pairing where
  settings := ⟨limit, .rejected⟩
  settings' := settings
  finish := byteLength text.toList
  finish' := finish
  place position position' := position' = bytes + position
  closes := True
  extra := p.reads.length

/-- The pieces of the text are the same, and the closing parenthesis stands for its end. -/
theorem Facing.agree (h : Facing settings finish bytes text rest p) (n : Nat) :
    (enclosing limit bytes text settings finish p).Agree n (Cursor.ofText text) p.cursor := by
  have hpieces : List.Forall₂ (fun piece piece' : Lexeme =>
      (enclosing limit bytes text settings finish p).Same piece.placed piece'.placed)
      (Lexeme.scan 0 text.toList)
      ((Lexeme.scan 0 text.toList).map (Lexeme.shift bytes)) := by
    rw [List.forall₂_map_right_iff]
    exact List.forall₂_same.2 fun _ _ => ⟨rfl, .inl rfl⟩
  have hpending : (Cursor.ofText text).pending = Lexeme.scan 0 text.toList ++ [] :=
    (List.append_nil _).symm
  have hagree := Pairing.agree_of_forall₂ (n := n) hpieces hpending h.pending_eq
    fun d d' hd hlength hd' _ => ?_
  · exact hagree.mono (Nat.le_add_left _ _)
  · cases n with
    | zero => trivial
    | succ n =>
      rw [Pairing.Agree, Cursor.front_of_nil hd, Cursor.front_of_cons hd', hlength]
      exact ⟨⟨rfl, .inr ⟨trivial, rfl, rfl⟩⟩, fun hne => absurd rfl hne⟩

/-- **In its parentheses a text is parsed as it is by itself.** -/
theorem Facing.inStep (h : Facing settings finish bytes text rest p) (limit : Nat) :
    (enclosing limit bytes text settings finish p).InStep (pulls (alone limit text))
      (alone limit text) (inside limit p) := by
  have hlook := lookahead_fresh_ne ⟨limit, .rejected⟩ (Cursor.ofText text)
  have hlook' : p.lookahead ≠ .endOfInput := by
    rw [h.lookahead_eq]
    simp
  have hlevel : (enclosing limit bytes text settings finish p).Level
      (fresh ⟨limit, .rejected⟩ (Cursor.ofText text)) p :=
    ⟨ready_fresh _ text, h.ready, (Nat.zero_add _).symm⟩
  have hexpr := Pairing.locksteps_exprBy
    (pulls_factorWithin (enclosing limit bytes text settings finish p).settings _ limit)
    (pulls_factorWithin settings finish limit)
    (Pairing.locksteps_factorWithin (enclosing limit bytes text settings finish p) limit)
  have hdeeper := hexpr.withDepth id fun depth => depth + 1
  have hfirst := pulled_fresh ⟨limit, .rejected⟩ text
  refine Pairing.InStep.andThen (Pairing.inStep_advance hlevel hlook hlook' (h.agree _))
    (fun _ q hresult => ?_) (fun _ q q' _ _ => hdeeper.inStep) (Nat.le_refl _)
  rw [hresult] at hfirst
  exact hexpr.grows q hfirst.ready_of_ok

/-- What a text comes to by itself is its expression, and then what is left over. -/
theorem course_eq_alone (limit : Nat) (text : String) :
    Evaluation.course ⟨limit, .rejected⟩ text = andThen (alone limit text) settle := by
  have hfirst := pulled_fresh ⟨limit, .rejected⟩ text
  rw [Evaluation.course, alone]
  rcases hresult : advance (fresh ⟨limit, .rejected⟩ (Cursor.ofText text)) with
    ⟨_, q⟩ | ⟨fault, q⟩
  · rw [hresult] at hfirst
    have hbudget : q.budget = limit := by
      rw [budget, hfirst.ready_of_ok.settings_eq, hfirst.depth_eq _ _ rfl]
      rfl
    rw [andThen_ok, andThen_ok, parse_eq, expr, hbudget]
  · rfl

/-- The expression of a text takes steps. -/
theorem pulled_alone (limit : Nat) (text : String) :
    ∃ n, Pulled ⟨limit, .rejected⟩ (byteLength text.toList)
      (fresh ⟨limit, .rejected⟩ (Cursor.ofText text)) n (alone limit text) 0 := by
  refine (pulled_fresh ⟨limit, .rejected⟩ text).andThen fun _ q hq hdepth => ?_
  rw [← hdepth]
  exact pulls_exprBy (pulls_factorWithin _ _ limit) q hq

/-- So does what stands in parentheses. -/
theorem pulled_inside (h : p.Ready settings finish) (hlook : p.lookahead ≠ .endOfInput)
    (limit : Nat) : ∃ n, Pulled settings finish p n (inside limit p) (p.depth + 1) := by
  refine (pulled_advance h hlook).andThen fun _ q hq hdepth => ?_
  obtain ⟨n, hexpr⟩ := pulls_exprBy (pulls_factorWithin settings finish limit) _
    (hq.withDepth (q.depth + 1))
  rw [← hdepth]
  exact ⟨n, hexpr.of_eq rfl rfl rfl⟩

/-- What an expression comes to when nothing may be left over. -/
theorem alone_cases (limit : Nat) (text : String) :
    (∃ value q, alone limit text = .ok value q ∧ q.lookahead = .endOfInput ∧
        evaluateWith ⟨limit, .rejected⟩ text = .ok value) ∨
      (∃ fault q, alone limit text = .error fault q ∧
        evaluateWith ⟨limit, .rejected⟩ text = .error fault) ∨
      ∃ fault, fault.cause.IsMisplacement ∧
        evaluateWith ⟨limit, .rejected⟩ text = .error fault := by
  obtain ⟨houtcome, _⟩ := Evaluation.run_eq_course ⟨limit, .rejected⟩ text
  obtain ⟨_, hpulled⟩ := pulled_alone limit text
  rw [evaluateWith, houtcome, course_eq_alone]
  rcases halone : alone limit text with ⟨value, q⟩ | ⟨fault, q⟩
  · rw [halone] at hpulled
    have hready := hpulled.ready_of_ok
    rw [andThen_ok]
    by_cases hend : q.lookahead = .endOfInput
    · rw [settle_of_end hready rfl hend]
      exact .inl ⟨value, q, rfl, hend, rfl⟩
    · rw [settle_of_ne_end hready rfl hend]
      exact .inr (.inr ⟨q.misplaced .endOfInput, trivial, rfl⟩)
  · exact .inr (.inl ⟨fault, q, rfl, rfl⟩)

/-- A fault of a text is one of its expression, unless a token is misplaced. -/
theorem alone_of_error (h : evaluateWith ⟨limit, .rejected⟩ text = .error fault)
    (hcause : ¬ fault.cause.IsMisplacement) : ∃ q, alone limit text = .error fault q := by
  rcases alone_cases limit text with ⟨_, _, _, _, hok⟩ | ⟨fault', q, halone, herror⟩ |
    ⟨fault', hmisplaced, herror⟩
  · rw [hok] at h
    cases h
  · rw [herror] at h
    cases h
    exact ⟨q, halone⟩
  · rw [herror] at h
    cases h
    exact absurd hmisplaced hcause

/-- The value of a text is that of its expression, behind which it ends. -/
theorem alone_of_ok (h : evaluateWith ⟨limit, .rejected⟩ text = .ok value) :
    ∃ q, alone limit text = .ok value q ∧ q.lookahead = .endOfInput := by
  rcases alone_cases limit text with ⟨value', q, halone, hend, hok⟩ | ⟨_, _, _, herror⟩ |
    ⟨_, _, herror⟩
  · rw [hok] at h
    cases h
    exact ⟨q, halone, hend⟩
  · rw [herror] at h
    cases h
  · rw [herror] at h
    cases h

/-- A group begins with what stands in it. -/
theorem group_of_lookahead (hlook : p.lookahead = .leftParen) (limit : Nat) :
    group (exprBy (factorWithin limit)) p =
      andThen (inside limit p) fun value q =>
      andThen (eat .rightParen { q with depth := q.depth - 1 }) fun _ q => .ok value q := by
  rw [group_eq, eat_of_kind_eq (by rw [hlook]; rfl), inside]
  cases advance p <;> rfl

/-- **A fault of the text is one of the group.** -/
theorem Facing.group_of_error (h : Facing settings finish bytes text rest p)
    (herror : evaluateWith ⟨limit, .rejected⟩ text = .error fault)
    (hcause : ¬ fault.cause.IsMisplacement) :
    ∃ q, group (exprBy (factorWithin limit)) p = .error (fault.moved settings.maxDepth bytes) q := by
  obtain ⟨q, halone⟩ := alone_of_error herror hcause
  have hstep := h.inStep limit
  rw [group_of_lookahead h.lookahead_eq]
  rw [halone] at hstep
  generalize inside limit p = result at hstep ⊢
  cases hstep with
  | @error _ fault' _ q' hfault _ =>
    obtain ⟨cause', position'⟩ := fault'
    have hplace : position' = bytes + fault.position := hfault.place
    have hcause' : cause' = fault.cause.withLimit settings.maxDepth := hfault.cause_eq'
    refine ⟨q', ?_⟩
    rw [hplace, hcause']
    rfl
  | misplaced hcloses => exact absurd trivial hcause

/-- **If the text has a value, the group has come to its closing parenthesis.** -/
theorem Facing.group_of_ok (h : Facing settings finish bytes text rest p)
    (hok : evaluateWith ⟨limit, .rejected⟩ text = .ok value) :
    ∃ q, q.Ready settings finish ∧ q.lookahead = .rightParen ∧ q.cursor.pending = rest ∧
      group (exprBy (factorWithin limit)) p = andThen (advance q) fun _ r => .ok value r := by
  obtain ⟨q, halone, hend⟩ := alone_of_ok hok
  have hstep := h.inStep limit
  obtain ⟨n, hpulled⟩ := pulled_alone limit text
  obtain ⟨n', hpulled'⟩ := pulled_inside h.ready (by rw [h.lookahead_eq]; simp) limit
  rw [group_of_lookahead h.lookahead_eq]
  rw [halone] at hstep hpulled
  generalize inside limit p = result at hstep hpulled' ⊢
  cases hstep with
  | @ok _ _ q' halike =>
    -- as many steps have been taken as by the text alone, which is one more than it has pieces
    have hready := hpulled.ready_of_ok
    have hready' := hpulled'.ready_of_ok
    have hall : (fresh ⟨limit, .rejected⟩ (Cursor.ofText text)).remaining =
        (Lexeme.scan 0 text.toList).length + 1 := rfl
    have hused : n + q.remaining = (Lexeme.scan 0 text.toList).length + 1 := hpulled.remaining_eq
    have hleft : q.remaining = 0 := by
      rw [hready.remaining_eq, ahead_of_end hend]
      rfl
    have hreads : q.reads.length = 0 + n := hpulled.pulls_eq
    have hreads' : q'.reads.length = p.reads.length + n' := hpulled'.pulls_eq
    have hsame : q'.reads.length = q.reads.length + p.reads.length := halike.length_reads
    have hn : n' = (Lexeme.scan 0 text.toList).length + 1 := by omega
    have hpending : q'.cursor.pending = rest := by
      have hcursor : q'.cursor = p.cursor.skip n' := hpulled'.cursor_eq
      rw [hcursor, Cursor.pending_skip, h.pending_eq, hn, List.drop_append, List.length_map]
      simp
    have hlook : q'.lookahead = .rightParen := by
      rcases halike.lookahead_of_end hend with hend' | ⟨_, hclose⟩
      · have hused' : n' + q'.remaining = p.remaining := hpulled'.remaining_eq
        rw [hready'.remaining_eq, ahead_of_end hend', remaining, p.cursor.left_eq, h.pending_eq,
          h.lookahead_eq] at hused'
        simp at hused'
        omega
      · exact hclose
    refine ⟨{ q' with depth := q'.depth - 1 }, hready'.withDepth _, hlook, hpending, ?_⟩
    rw [andThen_ok, eat_of_kind_eq]
    show q'.lookahead.kind = .rightParen
    rw [hlook]
    rfl

/-! ## Chains up to the end -/

/-- A result with the given outcome, where the text has ended if that is a value. -/
inductive Ends (settings : Settings) (finish : Nat) :
    EStateM.Result Fault Parser Binary64 → Except Fault Binary64 → Prop
  | ok {value : Binary64} {q : Parser} (hready : q.Ready settings finish)
      (hend : q.lookahead = .endOfInput) : Ends settings finish (.ok value q) (.ok value)
  | error {fault : Fault} {q : Parser} : Ends settings finish (.error fault q) (.error fault)

/-- Where the text has ended, no chain goes on. -/
theorem operatorOf_of_end (h : q.lookahead = .endOfInput) : operatorOf level q = none := by
  rw [operatorOf, h]
  rfl

/-- A chain of one operand. -/
theorem chain_of_operand (h : operand p = .ok value q) (hop : operatorOf level q = none) :
    chain level operand p = .ok value q := by
  rw [chain_eq, h, andThen_ok, rounds_of_operatorOf_eq_none hop]

/-- A chain whose first operand is all that there is. -/
theorem Ends.chain (h : Ends settings finish (operand p) outcome) :
    Ends settings finish (chain level operand p) outcome := by
  rcases hresult : operand p with ⟨value, q⟩ | ⟨fault, q⟩
  · rw [hresult] at h
    cases h with
    | ok hready hend =>
      rw [chain_of_operand hresult (operatorOf_of_end hend)]
      exact .ok hready hend
  · rw [hresult] at h
    cases h with
    | error =>
      rw [chain_eq, hresult]
      exact .error

/-- A chain of two operands. -/
theorem Ends.chain_round (hleft : operand p = .ok left q) (hop : operatorOf level q = some op)
    (hnext : advance q = .ok () r) (h : Ends settings finish (operand r) outcome) :
    Ends settings finish (Parser.chain level operand p)
      (outcome >>= fun right => op.apply left right q.position) := by
  have hkind := kind_of_operatorOf hop
  obtain ⟨n, hn⟩ : ∃ n, q.remaining = n + 1 := by
    refine Nat.exists_eq_succ_of_ne_zero fun hzero => ?_
    rw [operatorOf_eq_none_of_remaining hzero] at hop
    cases hop
  rw [chain_eq, hleft, andThen_ok, hn, rounds_of_operatorOf hop, eat_of_kind_eq hkind, hnext,
    andThen_ok]
  rcases hright : operand r with ⟨right, s⟩ | ⟨fault, s⟩
  · rw [hright] at h
    cases h with
    | ok hready hend =>
      rw [andThen_ok]
      show Ends settings finish _ (op.apply left right q.position)
      rcases op.apply left right q.position with fault | value
      · exact .error
      · have hstop : operatorOf level (s.recorded (.applied op left right q.position)) = none :=
          operatorOf_of_end hend
        show Ends settings finish (rounds level operand n value _) _
        rw [rounds_of_operatorOf_eq_none hstop]
        exact .ok (hready.recorded _) hend
  · rw [hright] at h
    cases h with
    | error => exact .error

/-- Nothing is left over then. -/
theorem Ends.settle {result : EStateM.Result Fault Parser Binary64}
    (h : Ends settings finish result outcome) (htrailing : settings.trailing = .rejected) :
    outcomeOf (andThen result settle) = outcome := by
  cases h with
  | ok hready hend =>
    rw [andThen_ok, settle_of_end hready htrailing hend]
    rfl
  | error => rfl

/-! ## Groups -/

/-- A factor that begins with a parenthesis is a group. -/
theorem Facing.factorWithin_eq (h : Facing settings finish bytes text rest p) (limit : Nat) :
    factorWithin (limit + 1) p = group (exprBy (factorWithin limit)) p :=
  factorBy_of_leftParen h.lookahead_eq

/-- A fault that the text has by itself is met in the group. -/
theorem Facing.ends_of_error (h : Facing settings finish bytes text rest p)
    (herror : evaluateWith ⟨limit, .rejected⟩ text = .error fault)
    (hcause : ¬ fault.cause.IsMisplacement) :
    Ends settings finish (factorWithin (limit + 1) p)
      (.error (fault.moved settings.maxDepth bytes)) := by
  obtain ⟨q, hgroup⟩ := h.group_of_error herror hcause
  rw [h.factorWithin_eq, hgroup]
  exact .error

/-- Behind a group with nothing behind it the text has ended. -/
theorem Facing.ends_of_ok (h : Facing settings finish bytes text [] p)
    (hok : evaluateWith ⟨limit, .rejected⟩ text = .ok value) :
    Ends settings finish (factorWithin (limit + 1) p) (.ok value) := by
  obtain ⟨q, hready, _, hpending, hgroup⟩ := h.group_of_ok hok
  have hfront : q.cursor.front.reading = .token .endOfInput := by
    rw [Cursor.front_of_nil hpending]
  rw [h.factorWithin_eq, hgroup, advance_of_token hfront, andThen_ok]
  exact .ok (hready.looking hfront) rfl

/-- Behind a group that is followed by an operator comes the operator. -/
theorem Facing.operator_of_ok {piece : Lexeme} (h : Facing settings finish bytes text (piece :: rest) p)
    (hpiece : piece.reading = .token (.operator op))
    (hok : evaluateWith ⟨limit, .rejected⟩ text = .ok value) :
    ∃ q, factorWithin (limit + 1) p = .ok value q ∧ q.Ready settings finish ∧
      q.lookahead = .operator op ∧ q.position = piece.start ∧ q.cursor.pending = rest := by
  obtain ⟨q, hready, _, hpending, hgroup⟩ := h.group_of_ok hok
  have hfront := Cursor.front_of_cons hpending
  have hreading : q.cursor.front.reading = .token (.operator op) := by
    rw [hfront]
    exact hpiece
  refine ⟨q.looking (.operator op), ?_, hready.looking hreading, rfl, ?_, ?_⟩
  · rw [h.factorWithin_eq, hgroup, advance_of_token hreading, andThen_ok]
  · show q.cursor.front.position = _
    rw [hfront]
    rfl
  · rw [looking, Cursor.pending_next, hpending]
    rfl

/-- **A group, an operator and another group** are the whole of an expression, whatever the level of
    the operator. -/
theorem Facing.ends_of_two {op : Operator} {piece piece' : Lexeme} {bytes' : Nat}
    {text' : String}
    (h : Facing settings finish bytes text (piece :: piece' :: rest) p)
    (hpiece : piece.reading = .token (.operator op))
    (hpiece' : piece'.reading = .token .leftParen)
    (hrest : rest = (Lexeme.scan 0 text'.toList).map (Lexeme.shift bytes') ++
      [⟨bytes' + byteLength text'.toList, bytes' + byteLength text'.toList + 1,
        .token .rightParen⟩])
    (hok : evaluateWith ⟨limit, .rejected⟩ text = .ok left)
    (hright : ∀ r, Facing settings finish bytes' text' [] r →
      Ends settings finish (factorWithin (limit + 1) r) outcome) :
    Ends settings finish (exprBy (factorWithin (limit + 1)) p)
      (outcome >>= fun right => op.apply left right piece.start) := by
  obtain ⟨q, hleft, hready, hlook, hposition, hpending⟩ := h.operator_of_ok hpiece hok
  have hreading : q.cursor.front.reading = .token .leftParen := by
    rw [Cursor.front_of_cons hpending]
    exact hpiece'
  have hfacing : Facing settings finish bytes' text' [] (q.looking .leftParen) := by
    refine ⟨hready.looking hreading, rfl, ?_⟩
    rw [looking, Cursor.pending_next, hpending]
    exact hrest
  have hnext := advance_of_token hreading
  have hends := hright _ hfacing
  have hop : ∀ level, operatorOf level q = if op.level = level then some op else none := by
    intro level
    rw [operatorOf, hlook]
    simp [Token.kind, TokenKind.operator?, Option.filter]
  rw [← hposition]
  cases hlevel : op.level with
  | product =>
    have hproduct : operatorOf .product q = some op := by rw [hop, if_pos hlevel]
    have hterm := Ends.chain_round hleft hproduct hnext hends
    exact hterm.chain
  | sum =>
    have hproduct : operatorOf .product q = none := by
      rw [hop, if_neg (by rw [hlevel]; decide)]
    have hsum : operatorOf .sum q = some op := by rw [hop, if_pos hlevel]
    have hterm : chain .product (factorWithin (limit + 1)) p = .ok left q :=
      chain_of_operand hleft hproduct
    exact Ends.chain_round hterm hsum hnext hends.chain

/-- A text that begins with a parenthesis is parsed from there. -/
theorem evaluateWith_of_facing {text whole : String} {close : Nat}
    (hpieces : Lexeme.scan 0 whole.toList = ⟨0, close, .token .leftParen⟩ ::
      ((Lexeme.scan 0 text.toList).map (Lexeme.shift 1) ++
        ⟨1 + byteLength text.toList, 1 + byteLength text.toList + 1, .token .rightParen⟩ :: rest))
    (h : ∀ p, Facing ⟨limit, .rejected⟩ (byteLength whole.toList) 1 text rest p →
      Ends ⟨limit, .rejected⟩ (byteLength whole.toList) (exprBy (factorWithin limit) p) outcome) :
    evaluateWith ⟨limit, .rejected⟩ whole = outcome := by
  have hpending : (Cursor.ofText whole).pending = _ := hpieces
  have hreading : (Cursor.ofText whole).front.reading = .token .leftParen := by
    rw [Cursor.front_of_cons hpending]
    rfl
  obtain ⟨houtcome, _⟩ := Evaluation.run_eq_course ⟨limit, .rejected⟩ whole
  have hready := (ready_fresh ⟨limit, .rejected⟩ whole).looking hreading
  have hfacing : Facing ⟨limit, .rejected⟩ (byteLength whole.toList) 1 text rest
      ((fresh ⟨limit, .rejected⟩ (Cursor.ofText whole)).looking .leftParen) := by
    refine ⟨hready, rfl, ?_⟩
    rw [looking, Cursor.pending_next]
    exact congrArg List.tail hpending
  rw [evaluateWith, houtcome, course_eq_alone, alone, advance_of_token hreading, andThen_ok]
  exact (h _ hfacing).settle rfl

end Parser

/-! ## The result -/

/-- The pieces of a text in parentheses. -/
theorem scan_parenthesized_text (text : String) :
    Lexeme.scan 0 (parenthesized text).toList = ⟨0, 1, .token .leftParen⟩ ::
      ((Lexeme.scan 0 text.toList).map (Lexeme.shift 1) ++
        [⟨1 + byteLength text.toList, 1 + byteLength text.toList + 1, .token .rightParen⟩]) := by
  have htext : (parenthesized text).toList = '(' :: (text.toList ++ [')']) := by
    simp [parenthesized]
  have hscan := Lexeme.scan_parenthesized 0 text.toList []
  rw [Nat.zero_add, Lexeme.scan] at hscan
  rw [htext, hscan]

/-- The pieces of two texts in parentheses with an operator between them. -/
theorem scan_composed (op : Operator) (left right : String) :
    let place := byteLength left.toList + 2
    Lexeme.scan 0 (composed op left right).toList = ⟨0, 1, .token .leftParen⟩ ::
      ((Lexeme.scan 0 left.toList).map (Lexeme.shift 1) ++
        ⟨1 + byteLength left.toList, 1 + byteLength left.toList + 1, .token .rightParen⟩ ::
        ⟨place, place + 1, .token (.operator op)⟩ :: ⟨place + 1, place + 2, .token .leftParen⟩ ::
        ((Lexeme.scan 0 right.toList).map (Lexeme.shift (place + 2)) ++
          [⟨place + 2 + byteLength right.toList, place + 2 + byteLength right.toList + 1,
            .token .rightParen⟩])) := by
  intro place
  have htext : (composed op left right).toList =
      '(' :: (left.toList ++ ')' :: op.symbol :: '(' :: (right.toList ++ [')'])) := by
    simp [composed, parenthesized]
  have hsymbol : (op.symbol, Token.operator op) ∈ Token.symbols := by
    cases op <;> simp [Token.symbols, Operator.symbol]
  have hwidth : byteLength [op.symbol] = 1 := by cases op <;> rfl
  have hplace : 0 + 1 + byteLength left.toList + 1 = place := by omega
  have hright := Lexeme.scan_parenthesized (place + 1) right.toList []
  rw [Lexeme.scan] at hright
  rw [htext, Lexeme.scan_parenthesized, Lexeme.scan_symbol hsymbol, hwidth, hplace, hright,
    Nat.zero_add]

/-- **Parentheses compose.**  Two texts are put in parentheses with an operator between them, and one
    more parenthesis may be opened.  A fault of the first text is the fault of the whole, moved behind
    its opening parenthesis, whatever the second text is.  If the first text has a value, a fault of
    the second one is the fault of the whole, moved behind that one's opening parenthesis.  If both
    have a value, the operator is applied to them at its place.  One text in parentheses comes to what
    it comes to without them.

    Nothing is said where a token of a text is misplaced: what is misplaced in the text may well have
    its place in the whole. -/
theorem evaluateWith_composed (limit : Nat) (op : Operator) (left right : String) :
    let alone := evaluateWith ⟨limit, .rejected⟩
    let deeper := evaluateWith ⟨limit + 1, .rejected⟩
    (∀ fault, alone left = .error fault → ¬ fault.cause.IsMisplacement →
      deeper (composed op left right) = .error (fault.moved (limit + 1) 1)) ∧
    (∀ value fault, alone left = .ok value → alone right = .error fault →
      ¬ fault.cause.IsMisplacement →
      deeper (composed op left right) =
        .error (fault.moved (limit + 1) (byteLength left.toList + 4))) ∧
    (∀ value value', alone left = .ok value → alone right = .ok value' →
      deeper (composed op left right) =
        op.apply value value' (byteLength left.toList + 2)) ∧
    (∀ value, alone left = .ok value → deeper (parenthesized left) = .ok value) ∧
    (∀ fault, alone left = .error fault → ¬ fault.cause.IsMisplacement →
      deeper (parenthesized left) = .error (fault.moved (limit + 1) 1)) := by
  intro alone deeper
  have hone := scan_parenthesized_text left
  have htwo := scan_composed op left right
  refine ⟨?_, ?_, ?_, ?_, ?_⟩
  · intro fault herror hcause
    refine Parser.evaluateWith_of_facing htwo fun p hp => ?_
    exact (hp.ends_of_error herror hcause).chain.chain
  · intro value fault hok herror hcause
    refine Parser.evaluateWith_of_facing htwo fun p hp => ?_
    exact hp.ends_of_two rfl rfl rfl hok fun r hr => hr.ends_of_error herror hcause
  · intro value value' hok hok'
    refine Parser.evaluateWith_of_facing htwo fun p hp => ?_
    exact hp.ends_of_two rfl rfl rfl hok fun r hr => hr.ends_of_ok hok'
  · intro value hok
    refine Parser.evaluateWith_of_facing hone fun p hp => ?_
    exact (hp.ends_of_ok hok).chain.chain
  · intro fault herror hcause
    refine Parser.evaluateWith_of_facing hone fun p hp => ?_
    exact (hp.ends_of_error herror hcause).chain.chain

-- a misplaced parenthesis that has its place in the whole
example : evaluateWith ⟨0, .rejected⟩ "1)+(2" = .error ⟨.unexpected .endOfInput .rightParen, 1⟩ := by
  decide +kernel
example : evaluateWith ⟨1, .rejected⟩ (parenthesized "1)+(2") = .ok (.ofNat 3) := by decide +kernel

end Calculator
