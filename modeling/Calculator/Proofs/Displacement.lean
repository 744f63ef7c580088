/-
  A parser in the middle of a text.

  Problem: a cursor is asked for some pieces of a text, whatever they are, and a parser begins behind
  them.  Show that it does what a parser does that begins a text of its own there, although its
  places are counted from the beginning of the whole text, and whatever is asked of it, also after
  faults.

  1. **Further on** — `shift`: a cursor, a record, a parser with all of its places so many bytes
     further on.  Nothing else is changed.

  2. **The crux (`Moves.andThen`)** — an action moves with its parser (`Moves`) if it does the same
     further on, and comes to the same, further on.  This goes through sequences, because a place is
     only ever kept, recorded or reported: no rule decides anything by it.

  3. **Rules** — rounds by their bound, factors by how many parentheses may still be opened, and so
     every call and every sequence of calls (`observe_shift`).

  4. **Result (`start_skip_as_on_rest`)** — the pieces still to come are those of the rest of the
     text, further on, and the two parsers are the same but for that as soon as they have looked at
     the first of them.
-/
import Calculator.Proofs.Moments
import Calculator.Proofs.Seams

namespace Calculator

open Text

variable {α β : Type} {bytes : Nat}

/-! ## Further on -/

/-- The same event, so many bytes further on. -/
def Event.shift (bytes : Nat) : Event → Event
  | .read token position => .read token (bytes + position)
  | .rounded value position => .rounded value (bytes + position)
  | .applied op left right position => .applied op left right (bytes + position)
  | .ignored position => .ignored (bytes + position)
  | .failed text fault => .failed text (fault.shift bytes)
  | .started text => .started text
  | .succeeded text value => .succeeded text value

/-- The same cursor in a text that is so many bytes longer at its beginning. -/
def Cursor.shift (bytes : Nat) (c : Cursor) : Cursor :=
  ofPieces (c.pending.map (Lexeme.shift bytes)) (bytes + c.length) (bytes + c.position)

/-- The same parser in such a text. -/
def Parser.shift (bytes : Nat) (p : Parser) : Parser where
  settings := p.settings
  cursor := p.cursor.shift bytes
  lookahead := p.lookahead
  position := bytes + p.position
  depth := p.depth
  events := p.events.map (Event.shift bytes)

/-- The same result in such a text. -/
def moved (bytes : Nat) : EStateM.Result Fault Parser α → EStateM.Result Fault Parser α
  | .ok a q => .ok a (q.shift bytes)
  | .error fault q => .error (fault.shift bytes) (q.shift bytes)

/-- An action that does the same further on, and comes to the same, further on. -/
def Moves (bytes : Nat) (action : Rule α) : Prop :=
  ∀ p, action (p.shift bytes) = moved bytes (action p)

/-! ## Sequences -/

/-- **One after the other.**  What follows a result that is moved is moved, if it is wherever the
    result is a value. -/
theorem andThen_moved {result : EStateM.Result Fault Parser α}
    {action action' : α → Parser → EStateM.Result Fault Parser β}
    (h : ∀ a q, action' a (q.shift bytes) = moved bytes (action a q)) :
    andThen (moved bytes result) action' = moved bytes (andThen result action) := by
  cases result with
  | ok a q => exact h a q
  | error fault q => rfl

/-- Sequences move, if their members do. -/
theorem Moves.andThen {action : Rule α} {next : α → Rule β} (h : Moves bytes action)
    (hnext : ∀ a, Moves bytes (next a)) :
    Moves bytes fun p => Calculator.andThen (action p) fun a q => next a q := by
  intro p
  simp only [h p]
  exact andThen_moved hnext

/-! ## Single actions -/

theorem moves_ok (a : α) : Moves bytes fun p => .ok a p := fun _ => rfl

/-- What a cursor hands out further on is what it hands out, further on. -/
theorem Cursor.next_shift (bytes : Nat) (c : Cursor) :
    (c.shift bytes).next = (c.next.1.mapError (Fault.shift bytes), c.next.2.shift bytes) := by
  rcases hpending : c.pending with _ | ⟨piece, rest⟩
  · have hshift : (c.shift bytes).pending = [] := by
      show c.pending.map (Lexeme.shift bytes) = []
      rw [hpending, List.map_nil]
    rw [next_of_nil hshift, next_of_nil hpending]
    rfl
  · have hshift : (c.shift bytes).pending =
        piece.shift bytes :: rest.map (Lexeme.shift bytes) := by
      show c.pending.map (Lexeme.shift bytes) = _
      rw [hpending, List.map_cons]
    rw [next_of_cons hshift, next_of_cons hpending]
    obtain ⟨start, stop, reading⟩ := piece
    cases reading with
    | token token => rfl
    | stray x => rfl

namespace Parser

@[simp] theorem lookahead_shift (bytes : Nat) (p : Parser) :
    (p.shift bytes).lookahead = p.lookahead := rfl

@[simp] theorem position_shift (bytes : Nat) (p : Parser) :
    (p.shift bytes).position = bytes + p.position := rfl

@[simp] theorem settings_shift (bytes : Nat) (p : Parser) :
    (p.shift bytes).settings = p.settings := rfl

theorem operatorOf_shift (bytes : Nat) (level : Level) (p : Parser) :
    operatorOf level (p.shift bytes) = operatorOf level p := rfl

theorem shift_recorded (bytes : Nat) (p : Parser) (event : Event) :
    (p.recorded event).shift bytes = (p.shift bytes).recorded (event.shift bytes) := by
  simp only [recorded, shift, Array.map_push]

theorem shift_noted (bytes : Nat) (p : Parser) (literal : Literal) :
    (p.noted literal).shift bytes = (p.shift bytes).noted literal := by
  cases literal with
  | exact value => rfl
  | rounded value => exact shift_recorded bytes p _

/-- The next token is read. -/
theorem moves_advance : Moves bytes advance := by
  intro p
  have hcursor : (p.shift bytes).cursor = p.cursor.shift bytes := rfl
  have hnext := Cursor.next_shift bytes p.cursor
  rw [advance, advance, hcursor]
  generalize (p.cursor.shift bytes).next = next' at hnext ⊢
  subst hnext
  rcases p.cursor.next with ⟨fault | token, behind⟩
  · rfl
  · simp only [moved, shift, Array.map_push]
    rfl

/-- A token is consumed by its kind. -/
theorem moves_eat (kind : TokenKind) : Moves bytes (eat kind) := by
  intro p
  by_cases hkind : p.lookahead.kind = kind
  · have hkind' : (p.shift bytes).lookahead.kind = kind := hkind
    rw [eat_of_kind_eq hkind, eat_of_kind_eq hkind']
    exact moves_advance p
  · have hkind' : (p.shift bytes).lookahead.kind ≠ kind := hkind
    rw [eat_of_kind_ne hkind, eat_of_kind_ne hkind']
    rfl

/-- A token is consumed behind a value that is kept. -/
theorem moves_eat_then (kind : TokenKind) (value : α) :
    Moves bytes fun p => andThen (eat kind p) fun _ q => .ok value q :=
  (moves_eat kind).andThen fun _ => moves_ok value

/-- A computation reports its place and nothing else. -/
theorem moves_ofExcept {value value' : Except Fault α} (p : Parser)
    (h : value' = value.mapError (Fault.shift bytes)) :
    (ofExcept value' : Rule α) (p.shift bytes) = moved bytes ((ofExcept value : Rule α) p) := by
  subst h
  cases value with
  | ok a => rfl
  | error fault => rfl

end Parser

theorem Binary64.checked_shift (bytes : Nat) (x : Binary64) (position : Nat) :
    x.checked (bytes + position) = (x.checked position).mapError (Fault.shift bytes) := by
  rw [checked, checked]
  split <;> rfl

theorem Operator.apply_shift (bytes : Nat) (op : Operator) (left right : Binary64)
    (position : Nat) :
    op.apply left right (bytes + position) =
      (op.apply left right position).mapError (Fault.shift bytes) := by
  cases op with
  | div =>
    rw [apply, apply]
    split
    · rfl
    · exact Binary64.checked_shift bytes _ position
  | add => exact Binary64.checked_shift bytes _ position
  | sub => exact Binary64.checked_shift bytes _ position
  | mul => exact Binary64.checked_shift bytes _ position

namespace Parser

/-! ## Rules -/

/-- **Rounds move**, if their operands do, by induction on their bound. -/
theorem moves_rounds {level : Level} {operand : Rule Binary64} (h : Moves bytes operand) :
    ∀ n left, Moves bytes (rounds level operand n left) := by
  intro n
  induction n with
  | zero => exact fun left => moves_ok left
  | succ n ih =>
    intro left p
    have hsame := operatorOf_shift bytes level p
    rcases hop : operatorOf level p with _ | op
    · rw [rounds_of_operatorOf_eq_none hop, rounds_of_operatorOf_eq_none (hsame.trans hop)]
      rfl
    · rw [rounds_of_operatorOf hop, rounds_of_operatorOf (hsame.trans hop), moves_eat,
        position_shift]
      refine andThen_moved fun _ q => ?_
      rw [h q]
      refine andThen_moved fun right r => ?_
      have hrecorded := shift_recorded bytes r (.applied op left right p.position)
      rw [Event.shift] at hrecorded
      rw [← hrecorded, moves_ofExcept _ (op.apply_shift bytes left right p.position)]
      exact andThen_moved ih

/-- Chains move.  Further on, equally many tokens remain. -/
theorem moves_chain {level : Level} {operand : Rule Binary64} (h : Moves bytes operand) :
    Moves bytes (chain level operand) := by
  intro p
  rw [chain_eq, chain_eq, h p]
  refine andThen_moved fun first q => ?_
  have hremaining : (q.shift bytes).remaining = q.remaining := by
    show (q.cursor.pending.map (Lexeme.shift bytes)).length + _ = q.cursor.left + _
    rw [List.length_map, ← q.cursor.left_eq]
    rfl
  rw [hremaining]
  exact moves_rounds h q.remaining first q

/-- Literals do. -/
theorem moves_integer (literal : Literal) : Moves bytes (integer literal) := by
  intro p
  rw [integer_eq, integer_eq, position_shift, ← shift_noted,
    moves_ofExcept _ (literal.toBinary64.checked_shift bytes p.position)]
  exact andThen_moved fun value => moves_eat_then .integer value

/-- Parentheses do, if what stands in them does. -/
theorem moves_group {inner : Rule Binary64} (h : Moves bytes inner) : Moves bytes (group inner) := by
  intro p
  rw [group_eq, group_eq, moves_eat]
  refine andThen_moved fun _ q => ?_
  -- the depth is no place, and is changed in the same way
  have hinside : inner { q.shift bytes with depth := (q.shift bytes).depth + 1 } =
      moved bytes (inner { q with depth := q.depth + 1 }) := h { q with depth := q.depth + 1 }
  rw [hinside]
  exact andThen_moved fun value r => moves_eat_then .rightParen value { r with depth := r.depth - 1 }

/-- Factors do, if what begins with a parenthesis does. -/
theorem moves_factorBy {parenthesized : Rule Binary64} (h : Moves bytes parenthesized) :
    Moves bytes (factorBy parenthesized) := by
  intro p
  have hsame := lookahead_shift bytes p
  rcases hlook : p.lookahead with literal | op | _ | _ | _
  case integer =>
    rw [factorBy_of_integer hlook, factorBy_of_integer (hsame.trans hlook)]
    exact moves_integer literal p
  case leftParen =>
    rw [factorBy_of_leftParen hlook, factorBy_of_leftParen (hsame.trans hlook)]
    exact h p
  all_goals
    rw [factorBy_of_ne (by simp [hlook]) (by simp [hlook]),
      factorBy_of_ne (by simp [hlook]) (by simp [hlook])]
    rfl

/-- Expressions do, if their factors do. -/
theorem moves_exprBy {factor : Rule Binary64} (h : Moves bytes factor) :
    Moves bytes (exprBy factor) :=
  moves_chain (moves_chain h)

/-- **Factors move**, by induction on how many more parentheses may be opened. -/
theorem moves_factorWithin (bytes : Nat) : ∀ budget, Moves bytes (factorWithin budget) := by
  intro budget
  induction budget with
  | zero => exact moves_factorBy fun _ => rfl
  | succ budget ih => exact moves_factorBy (moves_group (moves_exprBy ih))

theorem moves_expr : Moves bytes expr := fun p =>
  moves_exprBy (moves_factorWithin bytes p.budget) p

/-- What is left over is dealt with in the same way. -/
theorem moves_settle (value : Binary64) : Moves bytes (settle value) := by
  intro p
  rw [settle, settle, settings_shift, lookahead_shift]
  rcases p.settings.trailing with _ | _
  · by_cases hend : p.lookahead = .endOfInput
    · simp only [hend, if_true]
      rfl
    · simp only [hend, if_false, moved, shift_recorded]
      rfl
  · exact moves_eat_then .endOfInput value p

/-- Whole texts are parsed alike. -/
theorem moves_parse : Moves bytes parse := by
  intro p
  rw [parse_eq, parse_eq, moves_expr]
  exact andThen_moved moves_settle

theorem Call.moves_valued {rule : Rule Binary64} (h : Moves bytes rule) :
    Moves bytes (valued rule) := by
  intro p
  rw [valued_eq, valued_eq, h p]
  exact andThen_moved fun value => moves_ok (some value)

/-- **Every call moves.** -/
theorem Call.moves_run (call : Call) : Moves bytes call.run := by
  have hfactor : Moves bytes Parser.factor := fun p => moves_factorWithin bytes p.budget p
  have hterm : Moves bytes term := fun p => moves_chain (moves_factorWithin bytes p.budget) p
  cases call with
  | eat kind =>
    intro p
    have hrun : ∀ p, (Call.eat kind).run p = andThen (Parser.eat kind p) fun _ q => .ok none q := by
      intro p
      simp only [run, run_bind, run_pure]
    rw [hrun, hrun]
    exact moves_eat_then kind none p
  | factor => exact moves_valued hfactor
  | chain level =>
    cases level with
    | product => exact moves_valued hterm
    | sum => exact moves_valued moves_expr
  | parse => exact moves_valued moves_parse

/-! ## What can be seen of a parser -/

/-- What a call has come to, and what the parser then looks at, and where. -/
structure Observation where
  outcome : Except Fault (Option Binary64)
  lookahead : Token
  position : Nat

/-- The same observation, so many bytes further on. -/
def Observation.shift (bytes : Nat) (seen : Observation) : Observation where
  outcome := seen.outcome.mapError (Fault.shift bytes)
  lookahead := seen.lookahead
  position := bytes + seen.position

/-- What can be seen after each of some calls, one after the other, whether they come to a value or
    to a fault. -/
def observe : List Call → Parser → List Observation
  | [], _ => []
  | call :: calls, p =>
    let result := call.run p
    let last := ending result
    ⟨outcomeOf result, last.lookahead, last.position⟩ :: observe calls last

/-- **Further on, the same is seen, further on**, by induction on the calls. -/
theorem observe_shift (bytes : Nat) (calls : List Call) (p : Parser) :
    observe calls (p.shift bytes) = (observe calls p).map (Observation.shift bytes) := by
  induction calls generalizing p with
  | nil => rfl
  | cons call calls ih =>
    rw [observe, observe, call.moves_run p]
    rcases call.run p with ⟨value, q⟩ | ⟨fault, q⟩
    · exact congrArg (List.cons _) (ih q)
    · exact congrArg (List.cons _) (ih q)

/-! ## Where a parser begins -/

/-- A parser that begins further on is the same, further on, or fails in the same way. -/
theorem start_shift (bytes : Nat) (settings : Settings) (c : Cursor) :
    start settings (c.shift bytes) =
      match start settings c with
      | .ok p => .ok (p.shift bytes)
      | .error fault => .error (fault.shift bytes) := by
  have hnext := Cursor.next_shift bytes c
  rw [start, start]
  generalize (c.shift bytes).next = next' at hnext ⊢
  subst hnext
  rcases c.next with ⟨fault | token, behind⟩
  · rfl
  · have hevents : #[Event.read token behind.position].map (Event.shift bytes) =
        #[.read token (bytes + behind.position)] := List.map_toArray
    simp only [shift, hevents]
    rfl

end Parser

/-- The place of the last piece handed out is forgotten with the next one. -/
theorem Cursor.next_congr {c d : Cursor} (hpending : c.pending = d.pending)
    (hlength : c.length = d.length) : c.next = d.next := by
  rcases h : d.pending with _ | ⟨piece, rest⟩
  · rw [next_of_nil (hpending.trans h), next_of_nil h, hlength]
  · rw [next_of_cons (hpending.trans h), next_of_cons h, hlength]

/-- Where the last of the pieces ends that so many steps hand out, or the beginning if they hand out
    none. -/
def Cursor.reach (c : Cursor) (steps : Nat) : Nat :=
  ((c.pending.take steps).getLast?.map Lexeme.stop).getD 0

/-- The pieces behind some others are those of the rest of the text, further on. -/
theorem exists_rest (text : String) (steps : Nat) :
    ∃ front rest, text.toList = front ++ rest ∧
      byteLength front = (Cursor.ofText text).reach steps ∧
      (Lexeme.scan 0 text.toList).drop steps =
        (Lexeme.scan 0 rest).map (Lexeme.shift (byteLength front)) := by
  rw [Cursor.reach]
  show ∃ front rest, text.toList = front ++ rest ∧
    byteLength front = (((Lexeme.scan 0 text.toList).take steps).getLast?.map Lexeme.stop).getD 0 ∧
    (Lexeme.scan 0 text.toList).drop steps = _
  rw [List.take_eq_take_min, List.drop_eq_drop_min]
  rcases hsteps : min steps (Lexeme.scan 0 text.toList).length with _ | n
  · refine ⟨[], text.toList, rfl, rfl, ?_⟩
    rw [List.drop_zero, byteLength_nil, ← Lexeme.scan_add]
  · have hn : n < (Lexeme.scan 0 text.toList).length := by omega
    obtain ⟨front, rest, htext, hstop, hfresh, hlength, _⟩ :=
      Lexeme.exists_split_of_piece (List.getElem?_eq_getElem hn)
    refine ⟨front, rest, htext, ?_, ?_⟩
    · rw [List.take_add_one, List.getElem?_eq_getElem hn, Option.toList_some, List.getLast?_concat]
      exact hstop
    · rw [htext, Lexeme.scan_append 0 hfresh, List.drop_left' hlength, Nat.zero_add,
        ← Lexeme.scan_add, Nat.add_zero]

/-- **The rest of a text.**  Behind some steps a cursor goes on as one does in front of the rest of
    the text, further on. -/
theorem Cursor.exists_rest_next (text : String) (steps : Nat) :
    ∃ rest : String,
      rest.toUTF8 = text.toUTF8.extract ((ofText text).reach steps) text.toUTF8.size ∧
      ((ofText text).skip steps).next =
        ((ofText rest).shift ((ofText text).reach steps)).next := by
  obtain ⟨front, rest, htext, hbytes, hpieces⟩ := exists_rest text steps
  rw [← hbytes]
  refine ⟨String.ofList rest, ?_, next_congr ?_ ?_⟩
  · have hrest : (String.ofList rest).toUTF8 = rest.utf8Encode := by
      have hencoded : (String.ofList rest).toUTF8 = [].utf8Encode ++ rest.utf8Encode :=
        Text.toUTF8_eq_append String.toList_ofList
      rwa [List.utf8Encode_nil, ByteArray.empty_append] at hencoded
    rw [hrest, Text.toUTF8_eq_append htext, ByteArray.extract_append_eq_right
      (Text.size_utf8Encode front).symm ByteArray.size_append]
  · rw [pending_skip]
    show (Lexeme.scan 0 text.toList).drop steps =
      (Lexeme.scan 0 (String.ofList rest).toList).map _
    rw [hpieces, String.toList_ofList]
  · rw [length_skip]
    show byteLength text.toList = byteLength front + byteLength (String.ofList rest).toList
    rw [htext, byteLength_append, String.toList_ofList]

/-- **A parser in the middle of a text does what a parser does in front of the rest of it.**  Let a
    cursor take some steps through a text, whatever it hands out, and let the rest be the text from
    where the last piece ends that it has handed out.  If a parser cannot begin on the rest, then it
    cannot begin behind the cursor either, for the same fault further on.  If it can, then both look
    at the same token; and whatever is asked of them, one call after the other and also after faults,
    they come to the same values, or to faults of the same cause, and look at the same token after
    each call.  All places of the one are those of the other, further on by the bytes in front of the
    rest. -/
theorem Parser.start_skip_as_on_rest (text : String) (steps : Nat) :
    let bytes := (Cursor.ofText text).reach steps
    ∃ rest : String, rest.toUTF8 = text.toUTF8.extract bytes text.toUTF8.size ∧
      ∀ settings,
        match start settings (Cursor.ofText rest) with
        | .error fault =>
          start settings ((Cursor.ofText text).skip steps) = .error (fault.shift bytes)
        | .ok fresh => ∃ p, start settings ((Cursor.ofText text).skip steps) = .ok p ∧
          p.lookahead = fresh.lookahead ∧ p.position = bytes + fresh.position ∧
          ∀ calls, observe calls p = (observe calls fresh).map (Observation.shift bytes) := by
  obtain ⟨rest, hbytes, hnext⟩ := Cursor.exists_rest_next text steps
  refine ⟨rest, hbytes, fun settings => ?_⟩
  -- both begin with what the two cursors hand out next
  have hstart : start settings ((Cursor.ofText text).skip steps) =
      start settings ((Cursor.ofText rest).shift ((Cursor.ofText text).reach steps)) := by
    rw [start, start, hnext]
  rw [hstart, start_shift]
  rcases start settings (Cursor.ofText rest) with fault | fresh
  · rfl
  · exact ⟨_, rfl, rfl, rfl, fun calls => observe_shift _ calls fresh⟩

example : (Cursor.ofText "7 @é 8 / 2").reach 0 = 0 ∧ (Cursor.ofText "7 @é 8 / 2").reach 2 = 3 ∧
    (Cursor.ofText "7 @é 8 / 2").reach 3 = 5 := by
  decide +kernel

end Calculator
