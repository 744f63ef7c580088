/-
  What a parser keeps account of.

  Problem: a parser knows its lookahead, the place of it and how many parentheses are open.  Rules
  may be asked of it in any order, and again after they have failed, when it has read on behind its
  lookahead and has parentheses open that nobody will close.  Say what its account is worth then,
  and at every moment in between.

  1. **Reading** — `Reached`: the cursor has taken some steps through the text, and the lookahead is
     the last token among what it has been handed.  What is still to come stands behind the
     lookahead (`Reached.position_lt_front`), unless the input has ended.

  2. **Depth** — `Held`: the parentheses that have been open when the call was made, and one for
     every frame that waits for the expression in a parenthesis.

  3. **The crux (`Regular.step`)** — what is held is held one moment later.  `Task.Sound` carries
     what a task knows of the moment before it: that there is room for one more parenthesis, or that
     the operator whose right operand is wanted stands at the place that is kept for it.

  4. **Result (`kept_by_every_call`)** — so it is at all moments of all calls.  A call that comes to
     a value leaves the depth as it was; one that comes to a fault leaves it raised by the frames
     that were waiting in parentheses.
-/
import Calculator.Proofs.Evidence
import Calculator.Proofs.Moments

namespace Calculator

/-! ## What has been handed out -/

namespace Cursor

/-- The last token that so many steps hand out, with its place. -/
def lastRead (c : Cursor) (n : Nat) : Option (Token × Nat) :=
  ((c.steps n).filterMap Placed.read?).getLast?

theorem skip_succ_eq (c : Cursor) (n : Nat) : c.skip (n + 1) = (c.skip n).next.2 := skip_add c n 1

theorem steps_succ_eq (c : Cursor) (n : Nat) : c.steps (n + 1) = c.steps n ++ [(c.skip n).front] :=
  steps_add c n 1

/-- A step that hands out a token makes it the last one. -/
theorem lastRead_of_token {c : Cursor} {n : Nat} {token : Token}
    (h : (c.skip n).front.reading = .token token) :
    c.lastRead (n + 1) = some (token, (c.skip n).front.position) := by
  have hread : (c.skip n).front.read? = some (token, (c.skip n).front.position) := by
    rw [Placed.read?, h]
    rfl
  rw [lastRead, steps_succ_eq, List.filterMap_append, List.getLast?_append, List.filterMap_cons,
    hread]
  rfl

/-- A step that hands out a stray changes nothing about it. -/
theorem lastRead_of_stray {c : Cursor} {n : Nat} {x : Char}
    (h : (c.skip n).front.reading = .stray x) : c.lastRead (n + 1) = c.lastRead n := by
  have hread : (c.skip n).front.read? = none := by
    rw [Placed.read?, h]
    rfl
  rw [lastRead, steps_succ_eq, List.filterMap_append, List.getLast?_append, List.filterMap_cons,
    hread]
  rfl

/-- A token that was the last one has been handed out. -/
theorem mem_steps_of_lastRead {c : Cursor} {n : Nat} {token : Token} {position : Nat}
    (h : c.lastRead n = some (token, position)) : ⟨.token token, position⟩ ∈ c.steps n := by
  obtain ⟨⟨reading, place⟩, hmem, hread⟩ := List.mem_filterMap.1 (List.mem_of_getLast? h)
  rcases reading with token' | x
  · cases hread
    exact hmem
  · cases hread

variable {text : String}

/-- Of the pieces to come, the first stands in front of what is handed out behind it. -/
theorem position_lt_front_next {n : Nat} {piece : Lexeme} {rest : List Lexeme}
    (h : ((ofText text).skip n).pending = piece :: rest) :
    piece.placed ∈ Placed.ofText text ∧
      piece.start < ((ofText text).skip (n + 1)).front.position := by
  have hpieces : Placed.ofText text = ((ofText text).pending.take n).map Lexeme.placed ++
      piece.placed :: rest.map Lexeme.placed := by
    rw [← List.map_cons, ← h, pending_skip, ← List.map_append, List.take_append_drop]
    rfl
  obtain ⟨hlater, hend⟩ := Placed.position_lt hpieces
  have hrest : ((ofText text).skip (n + 1)).pending = rest := by
    rw [skip_succ_eq, pending_next, h]
    rfl
  refine ⟨by simp [hpieces], ?_⟩
  rcases rest with _ | ⟨piece', rest⟩
  · rw [front_of_nil hrest, length_skip]
    exact hend
  · rw [front_of_cons hrest]
    exact hlater _ List.mem_cons_self

/-- What comes next stands in front of what comes behind it, unless it is the end already. -/
theorem position_front_le_next (text : String) (n : Nat) :
    ((ofText text).skip n).front.position ≤ ((ofText text).skip (n + 1)).front.position := by
  rcases hpending : ((ofText text).skip n).pending with _ | ⟨piece, rest⟩
  · have hnext : ((ofText text).skip (n + 1)).pending = [] := by
      rw [skip_succ_eq, pending_next, hpending]
      rfl
    rw [front_of_nil hpending, front_of_nil hnext, length_skip, length_skip]
  · rw [front_of_cons hpending]
    exact Nat.le_of_lt (position_lt_front_next hpending).2

/-- **What has been handed out** is the end, and then nothing is left, or a piece of the text, and
    then it stands in front of what comes next. -/
theorem handed_out {n : Nat} {here : Placed} (h : here ∈ (ofText text).steps n) :
    (here.reading = .token .endOfInput ∧ here.position = Text.byteLength text.toList ∧
        ((ofText text).skip n).pending = []) ∨
      (here.reading ≠ .token .endOfInput ∧ here ∈ Placed.ofText text ∧
        here.position < ((ofText text).skip n).front.position) := by
  induction n with
  | zero => cases h
  | succ n ih =>
    rw [steps_succ_eq, List.mem_append, List.mem_singleton] at h
    rcases h with h | rfl
    · rcases ih h with ⟨hend, hposition, hpending⟩ | ⟨hne, hmem, hlt⟩
      · refine .inl ⟨hend, hposition, ?_⟩
        rw [skip_succ_eq, pending_next, hpending]
        rfl
      · exact .inr ⟨hne, hmem, Nat.lt_of_lt_of_le hlt (position_front_le_next text n)⟩
    · rcases hpending : ((ofText text).skip n).pending with _ | ⟨piece, rest⟩
      · refine .inl ?_
        rw [front_of_nil hpending, length_skip, skip_succ_eq, pending_next, hpending]
        exact ⟨rfl, rfl, rfl⟩
      · obtain ⟨hmem, hlt⟩ := position_lt_front_next hpending
        have hscan : piece ∈ (ofText text).pending := by
          rw [pending_skip] at hpending
          exact List.mem_of_mem_drop (hpending ▸ List.mem_cons_self)
        rw [front_of_cons hpending]
        exact .inr ⟨Lexeme.reading_scan_ne_end piece hscan, hmem, hlt⟩

end Cursor

namespace Parser

variable {settings : Settings} {text : String} {n : Nat} {p q : Parser}

/-! ## What has been read -/

/-- A parser whose cursor has taken so many steps through a text, and whose lookahead is the last
    token that it has been handed on the way, at its place. -/
structure Reached (settings : Settings) (text : String) (n : Nat) (p : Parser) : Prop where
  settings_eq : p.settings = settings
  cursor_eq : p.cursor = (Cursor.ofText text).skip n
  lookahead_eq : (Cursor.ofText text).lastRead n = some (p.lookahead, p.position)

/-- **The lookahead** is the end, or a piece of the text in front of what comes next. -/
theorem Reached.handed_out (h : Reached settings text n p) :
    (p.lookahead = .endOfInput ∧ p.position = Text.byteLength text.toList ∧
        p.cursor.pending = []) ∨
      (p.lookahead ≠ .endOfInput ∧ ReadsAt text p.position (.token p.lookahead) ∧
        p.position < p.cursor.front.position) := by
  rw [h.cursor_eq]
  refine (Cursor.handed_out (Cursor.mem_steps_of_lastRead h.lookahead_eq)).imp ?_ ?_
  · rintro ⟨hend, hposition, hpending⟩
    exact ⟨Reading.token.inj hend, hposition, hpending⟩
  · rintro ⟨hne, hmem, hlt⟩
    exact ⟨fun hend => hne (by rw [hend]), hmem, hlt⟩

theorem Reached.ready (h : Reached settings text n p) :
    p.Ready settings (Text.byteLength text.toList) := by
  refine ⟨h.settings_eq, ?_, fun hend => ?_, fun piece hpiece => ?_⟩
  · rw [h.cursor_eq, Cursor.length_skip]
    rfl
  · rcases h.handed_out with ⟨_, hposition, hpending⟩ | ⟨hne, _⟩
    · exact ⟨hpending, hposition⟩
    · exact absurd hend hne
  · rw [h.cursor_eq, Cursor.pending_skip] at hpiece
    exact Lexeme.reading_scan_ne_end piece (List.mem_of_mem_drop hpiece)

/-- What is still to come stands behind the lookahead. -/
theorem Reached.position_lt_front (h : Reached settings text n p)
    (hlook : p.lookahead ≠ .endOfInput) : p.position < p.cursor.front.position := by
  rcases h.handed_out with ⟨hend, _⟩ | ⟨_, _, hlt⟩
  · exact absurd hend hlook
  · exact hlt

/-- The lookahead is a piece of the text, unless it is the end. -/
theorem Reached.readsAt (h : Reached settings text n p) (hlook : p.lookahead ≠ .endOfInput) :
    ReadsAt text p.position (.token p.lookahead) := by
  rcases h.handed_out with ⟨hend, _⟩ | ⟨_, hreads, _⟩
  · exact absurd hend hlook
  · exact hreads

/-- At the end, the end comes again, and at the same place. -/
theorem Reached.position_le_front (h : Reached settings text n p) :
    p.position ≤ p.cursor.front.position := by
  rcases h.handed_out with ⟨hend, hposition, _⟩ | ⟨_, _, hlt⟩
  · rw [h.ready.front_of_end hend, hposition]
  · exact Nat.le_of_lt hlt

/-- The next token becomes the lookahead. -/
theorem Reached.looking {token : Token} (h : Reached settings text n p)
    (hfront : p.cursor.front.reading = .token token) :
    Reached settings text (n + 1) (p.looking token) := by
  have hcursor : (p.looking token).cursor = (Cursor.ofText text).skip (n + 1) := by
    rw [Cursor.skip_succ_eq, ← h.cursor_eq]
    rfl
  refine ⟨h.settings_eq, hcursor, ?_⟩
  rw [h.cursor_eq] at hfront
  rw [Cursor.lastRead_of_token hfront, ← h.cursor_eq]
  rfl

/-- A stray is passed over. -/
theorem Reached.passing {x : Char} (h : Reached settings text n p)
    (hfront : p.cursor.front.reading = .stray x) :
    Reached settings text (n + 1) { p with cursor := p.cursor.next.2 } := by
  refine ⟨h.settings_eq, ?_, ?_⟩
  · rw [Cursor.skip_succ_eq, ← h.cursor_eq]
  · rw [h.cursor_eq] at hfront
    rw [Cursor.lastRead_of_stray hfront, h.lookahead_eq]

/-- Recording moves nothing. -/
theorem Reached.recorded (h : Reached settings text n p) (event : Event) :
    Reached settings text n (p.recorded event) :=
  ⟨h.settings_eq, h.cursor_eq, h.lookahead_eq⟩

/-- Nor does changing the depth. -/
theorem Reached.withDepth (h : Reached settings text n p) (depth : Nat) :
    Reached settings text n { p with depth } :=
  ⟨h.settings_eq, h.cursor_eq, h.lookahead_eq⟩

/-- A parser is made with the first token behind the steps that have been taken before. -/
theorem reached_of_start {k : Nat}
    (h : start settings ((Cursor.ofText text).skip k) = .ok p) :
    Reached settings text (k + 1) p ∧ p.depth = 0 := by
  rw [start_eq] at h
  rcases hfront : ((Cursor.ofText text).skip k).front.reading with token | x
  · have hadvance : advance (fresh settings ((Cursor.ofText text).skip k)) = _ :=
      advance_of_token hfront
    rw [hadvance] at h
    cases h
    refine ⟨⟨rfl, ?_, ?_⟩, rfl⟩
    · rw [Cursor.skip_succ_eq]
      rfl
    · rw [Cursor.lastRead_of_token hfront]
      rfl
  · have hadvance : advance (fresh settings ((Cursor.ofText text).skip k)) = _ :=
      advance_of_stray hfront
    rw [hadvance] at h
    cases h

/-! ## What is held from one moment to the next -/

/-- How many of the frames wait for the expression in a parenthesis. -/
def opened (waiting : List Frame) : Nat := waiting.count .inside

/-- A chain that waits for a right operand has its operator behind it. -/
def Frame.Begun (text : String) (position : Nat) : Frame → Prop
  | .right _ op _ place => place < position ∧ ReadsAt text place (.token (.operator op))
  | .first _ | .inside | .rest => True

theorem Frame.Begun.mono {frame : Frame} {position position' : Nat}
    (h : frame.Begun text position) (hle : position ≤ position') : frame.Begun text position' := by
  cases frame with
  | right level op left place => exact ⟨Nat.lt_of_lt_of_le h.1 hle, h.2⟩
  | first | inside | rest => trivial

/-- What a task that consumes a token knows of it. -/
def Task.Sound (text : String) (q : Parser) : Task → Prop
  | .eat kind .inside => kind = .leftParen ∧ q.depth < q.settings.maxDepth
  | .eat kind (.operand _ op _ place) =>
    kind = .operator op ∧ place = q.position ∧ ReadsAt text place (.token (.operator op))
  | _ => True

/-- What is so about a parser and the frames that wait, in a call that was made when `depth`
    parentheses were open. -/
structure Held (settings : Settings) (text : String) (depth : Nat) (waiting : List Frame)
    (q : Parser) : Prop where
  reached : ∃ n, Reached settings text n q
  depth_eq : q.depth = depth + opened waiting
  depth_le : q.depth ≤ settings.maxDepth
  begun : ∀ frame ∈ waiting, frame.Begun text q.position

/-- What is so at every moment of such a call. -/
structure Regular (settings : Settings) (text : String) (depth : Nat) (m : Moment) : Prop where
  held : Held settings text depth m.waiting m.parser
  sound : m.task.Sound text m.parser

variable {depth : Nat} {waiting : List Frame} {m m' : Moment}

/-- One more frame waits, which is none for a parenthesis. -/
theorem Held.push {frame : Frame} (h : Held settings text depth waiting q)
    (hframe : frame ≠ .inside) (hbegun : frame.Begun text q.position) :
    Held settings text depth (frame :: waiting) q := by
  refine ⟨h.reached, ?_, h.depth_le, List.forall_mem_cons.2 ⟨hbegun, h.begun⟩⟩
  rw [h.depth_eq, opened, opened, List.count_cons_of_ne hframe]

/-- One frame less waits, which is none for a parenthesis. -/
theorem Held.pop {frame : Frame} (h : Held settings text depth (frame :: waiting) q)
    (hframe : frame ≠ .inside) : Held settings text depth waiting q := by
  refine ⟨h.reached, ?_, h.depth_le, (List.forall_mem_cons.1 h.begun).2⟩
  rw [h.depth_eq, opened, opened, List.count_cons_of_ne hframe]

/-- An open parenthesis is counted. -/
theorem Held.raise (h : Held settings text depth waiting q) (hlt : q.depth < settings.maxDepth) :
    Held settings text depth (.inside :: waiting) { q with depth := q.depth + 1 } := by
  obtain ⟨n, hreached⟩ := h.reached
  refine ⟨⟨n, hreached.withDepth _⟩, ?_, hlt, List.forall_mem_cons.2 ⟨trivial, h.begun⟩⟩
  rw [opened, List.count_cons_self, ← Nat.add_assoc]
  exact congrArg (· + 1) h.depth_eq

/-- Where a parenthesis waits for its expression, it has been counted. -/
theorem Held.depth_pos (h : Held settings text depth (.inside :: waiting) q) : 1 ≤ q.depth := by
  rw [h.depth_eq, opened, List.count_cons_self]
  omega

/-- The count is taken back. -/
theorem Held.lower (h : Held settings text depth (.inside :: waiting) q) :
    Held settings text depth waiting { q with depth := q.depth - 1 } := by
  obtain ⟨n, hreached⟩ := h.reached
  refine ⟨⟨n, hreached.withDepth _⟩, ?_, Nat.le_trans (Nat.sub_le _ _) h.depth_le,
    (List.forall_mem_cons.1 h.begun).2⟩
  show q.depth - 1 = depth + opened waiting
  rw [h.depth_eq, opened, opened, List.count_cons_self]
  omega

/-- What is recorded plays no part. -/
theorem Held.recorded (h : Held settings text depth waiting q) (event : Event) :
    Held settings text depth waiting (q.recorded event) := by
  obtain ⟨n, hreached⟩ := h.reached
  exact ⟨⟨n, hreached.recorded event⟩, h.depth_eq, h.depth_le, h.begun⟩

/-- The next token becomes the lookahead. -/
theorem Held.looking {token : Token} (h : Held settings text depth waiting q)
    (hfront : q.cursor.front.reading = .token token) :
    Held settings text depth waiting (q.looking token) ∧
      q.position ≤ (q.looking token).position := by
  obtain ⟨n, hreached⟩ := h.reached
  have hle : q.position ≤ (q.looking token).position := hreached.position_le_front
  exact ⟨⟨⟨n + 1, hreached.looking hfront⟩, h.depth_eq, h.depth_le,
    fun frame hframe => (h.begun frame hframe).mono hle⟩, hle⟩

/-- A stray is passed over. -/
theorem Held.passing {x : Char} (h : Held settings text depth waiting q)
    (hfront : q.cursor.front.reading = .stray x) :
    Held settings text depth waiting { q with cursor := q.cursor.next.2 } := by
  obtain ⟨n, hreached⟩ := h.reached
  exact ⟨⟨n + 1, hreached.passing hfront⟩, h.depth_eq, h.depth_le, h.begun⟩

/-! ## Steps -/

/-- The depth is about to be raised: an opening parenthesis is to be consumed for the expression
    behind it. -/
def Moment.Raises (m : Moment) : Prop := m.task = .eat .leftParen .inside

/-- The depth is about to be lowered: there is a value for the expression in a parenthesis. -/
def Moment.Lowers (m : Moment) : Prop :=
  ∃ value waiting, m.task = .give value ∧ m.waiting = .inside :: waiting

theorem lookahead_of_operatorOf {level : Level} {op : Operator} (h : operatorOf level p = some op) :
    p.lookahead = .operator op := by
  have hkind := kind_of_operatorOf h
  rcases hlook : p.lookahead with literal | op' | _ | _ | _
  case operator =>
    rw [hlook] at hkind
    cases hkind
    rfl
  all_goals
    rw [hlook] at hkind
    cases hkind

/-- A fault knows nothing, and so all depends on the task for the value. -/
theorem Task.sound_ofExcept {value : Except Fault Binary64} {next : Binary64 → Task}
    (h : ∀ v, (next v).Sound text q) : (Task.ofExcept value next).Sound text q := by
  rcases value with fault | v
  · trivial
  · exact h v

/-- Behind a call. -/
theorem Held.enter (h : Held settings text depth waiting q) (call : Call) :
    Regular settings text depth (call.enter waiting q) ∧
      (call.enter waiting q).parser.position = q.position ∧
      (call.enter waiting q).parser.depth = q.depth := by
  rcases call with kind | _ | level | _
  case eat => exact ⟨⟨h, trivial⟩, rfl, rfl⟩
  case factor =>
    rw [Call.enter]
    rcases q.lookahead with literal | op | _ | _ | _
    case integer =>
      dsimp only
      -- what the literal is worth plays no part
      generalize literal.toBinary64.checked q.position = value
      rcases literal with _ | rounded
      · exact ⟨⟨h, Task.sound_ofExcept fun _ => trivial⟩, rfl, rfl⟩
      · exact ⟨⟨h.recorded _, Task.sound_ofExcept fun _ => trivial⟩, rfl, rfl⟩
    case leftParen =>
      dsimp only
      split
      · next hlt => exact ⟨⟨h, rfl, hlt⟩, rfl, rfl⟩
      · exact ⟨⟨h, trivial⟩, rfl, rfl⟩
    all_goals exact ⟨⟨h, trivial⟩, rfl, rfl⟩
  case chain => exact ⟨⟨h.push (by simp) trivial, trivial⟩, rfl, rfl⟩
  case parse => exact ⟨⟨h.push (by simp) trivial, trivial⟩, rfl, rfl⟩

/-- Behind a token that is consumed. -/
theorem Held.follow {token : Token} {next : Next} (h : Held settings text depth waiting q)
    (hsound : (Task.eat q.lookahead.kind next).Sound text q)
    (hfront : q.cursor.front.reading = .token token) :
    Regular settings text depth (next.follow waiting (q.looking token)) ∧
      q.position ≤ (next.follow waiting (q.looking token)).parser.position ∧
      (next ≠ .inside → (next.follow waiting (q.looking token)).parser.depth = q.depth) := by
  obtain ⟨hlooking, hle⟩ := h.looking hfront
  obtain ⟨n, hreached⟩ := h.reached
  rcases next with _ | value | ⟨level, op, left, place⟩ | _
  case nothing => exact ⟨⟨hlooking, trivial⟩, hle, fun _ => rfl⟩
  case give => exact ⟨⟨hlooking, trivial⟩, hle, fun _ => rfl⟩
  case operand =>
    -- the operator was the lookahead, and so the token behind it stands behind the place kept
    obtain ⟨hkind, rfl, hreads⟩ := hsound
    have hlook : q.lookahead ≠ .endOfInput := ne_end_of_kind hkind (by simp)
    have hbegun : Frame.Begun text (q.looking token).position (.right level op left q.position) :=
      ⟨hreached.position_lt_front hlook, hreads⟩
    exact ⟨⟨hlooking.push (by simp) hbegun, trivial⟩, hle, fun _ => rfl⟩
  case inside =>
    have hlt : (q.looking token).depth < settings.maxDepth := by
      rw [← hreached.settings_eq]
      exact hsound.2
    exact ⟨⟨hlooking.raise hlt, trivial⟩, hle, fun hne => absurd rfl hne⟩

/-- Where a frame is given its value. -/
theorem Held.resume {frame : Frame} (h : Held settings text depth (frame :: waiting) q)
    (value : Binary64) :
    Regular settings text depth (frame.resume value waiting q) ∧
      (frame.resume value waiting q).parser.position = q.position ∧
      (frame ≠ .inside → (frame.resume value waiting q).parser.depth = q.depth) := by
  rcases frame with level | ⟨level, op, left, place⟩ | _ | _
  case first => exact ⟨⟨h.pop (by simp), trivial⟩, rfl, fun _ => rfl⟩
  case right =>
    exact ⟨⟨(h.pop (by simp)).recorded _, Task.sound_ofExcept fun _ => trivial⟩, rfl, fun _ => rfl⟩
  case inside => exact ⟨⟨h.lower, trivial⟩, rfl, fun hne => absurd rfl hne⟩
  case rest =>
    have hpop := h.pop (by simp)
    rw [Frame.resume]
    rcases q.settings.trailing with _ | _
    · dsimp only
      split
      · exact ⟨⟨hpop, trivial⟩, rfl, fun _ => rfl⟩
      · exact ⟨⟨hpop.recorded _, trivial⟩, rfl, fun _ => rfl⟩
    · exact ⟨⟨hpop, trivial⟩, rfl, fun _ => rfl⟩

/-- **One moment later** all is as it has to be.  The lookahead has not moved back, and the depth is
    the same unless it was about to be changed. -/
theorem Regular.step (h : Regular settings text depth m) (hstep : Step m m') :
    Regular settings text depth m' ∧ m.parser.position ≤ m'.parser.position ∧
      (¬ m.Raises → ¬ m.Lowers → m'.parser.depth = m.parser.depth) := by
  obtain ⟨hheld, hsound⟩ := h
  cases hstep with
  | enter call waiting q =>
    obtain ⟨hregular, hposition, hdepth⟩ := hheld.enter call
    exact ⟨hregular, Nat.le_of_eq hposition.symm, fun _ _ => hdepth⟩
  | consume next waiting q hfront =>
    obtain ⟨hregular, hposition, hdepth⟩ := hheld.follow hsound hfront
    refine ⟨hregular, hposition, fun hraises _ => hdepth ?_⟩
    rintro rfl
    refine hraises ?_
    show Task.eat q.lookahead.kind .inside = .eat .leftParen .inside
    rw [hsound.1]
  | stray next waiting q hfront =>
    exact ⟨⟨hheld.passing hfront, trivial⟩, Nat.le_refl _, fun _ _ => rfl⟩
  | misplaced next waiting q hkind => exact ⟨⟨hheld, trivial⟩, Nat.le_refl _, fun _ _ => rfl⟩
  | finish left waiting q hop => exact ⟨⟨hheld, trivial⟩, Nat.le_refl _, fun _ _ => rfl⟩
  | @round level op left waiting q hop =>
    have hlook := lookahead_of_operatorOf hop
    have hreads : ReadsAt text q.position (.token (.operator op)) := by
      obtain ⟨n, hreached⟩ := hheld.reached
      rw [← hlook]
      exact hreached.readsAt (by rw [hlook]; exact Token.noConfusion)
    exact ⟨⟨hheld, rfl, rfl, hreads⟩, Nat.le_refl _, fun _ _ => rfl⟩
  | resume frame value waiting q =>
    obtain ⟨hregular, hposition, hdepth⟩ := hheld.resume value
    refine ⟨hregular, Nat.le_of_eq hposition.symm, fun _ hlowers => hdepth ?_⟩
    rintro rfl
    exact hlowers ⟨value, waiting, rfl, rfl⟩

/-- **So it is at all later moments.** -/
theorem Regular.leads (h : Regular settings text depth m) (hleads : Leads m m') :
    Regular settings text depth m' ∧ m.parser.position ≤ m'.parser.position := by
  induction hleads with
  | refl => exact ⟨h, Nat.le_refl _⟩
  | tail _ hstep ih =>
    obtain ⟨hregular, hle⟩ := ih
    obtain ⟨hregular', hle', _⟩ := hregular.step (step_cases hstep)
    exact ⟨hregular', Nat.le_trans hle hle'⟩

/-! ## Calls -/

/-- A parser as it may be when a call is made. -/
structure Available (settings : Settings) (text : String) (p : Parser) : Prop where
  reached : ∃ n, Reached settings text n p
  depth_le : p.depth ≤ settings.maxDepth

/-- All is as it has to be when a call is made. -/
theorem Available.regular (h : Available settings text p) (call : Call) :
    Regular settings text p.depth (call.begin p) :=
  ⟨⟨h.reached, rfl, h.depth_le, fun _ hframe => by cases hframe⟩, trivial⟩

/-- Every call has a course, at whose end all is as it has to be. -/
theorem Available.exists_course (h : Available settings text p) (call : Call) :
    ∃ last, Leads (call.begin p) last ∧ last.result? = some (call.run p) ∧
      Regular settings text p.depth last := by
  obtain ⟨n, hreached⟩ := h.reached
  obtain ⟨last, hleads, hresult⟩ := Parser.exists_course call hreached.ready
  exact ⟨last, hleads, hresult, ((h.regular call).leads hleads).1⟩

/-- The parser that a call leaves behind may be called again. -/
theorem Available.ending_run (h : Available settings text p) (call : Call) :
    Available settings text (ending (call.run p)) := by
  obtain ⟨last, _, hresult, hregular⟩ := h.exists_course call
  rw [← Moment.parser_of_result hresult]
  exact ⟨hregular.held.reached, hregular.held.depth_le⟩

/-- **However often it is called.** -/
theorem Available.after (h : Available settings text p) (calls : List Call) :
    Available settings text (after calls p) := by
  induction calls generalizing p with
  | nil => exact h
  | cons call calls ih => exact ih (h.ending_run call)

theorem available_of_start {k : Nat}
    (h : start settings ((Cursor.ofText text).skip k) = .ok p) : Available settings text p := by
  obtain ⟨hreached, hdepth⟩ := reached_of_start h
  exact ⟨⟨_, hreached⟩, by rw [hdepth]; exact Nat.zero_le _⟩

/-! ## Where the input has ended -/

/-- No factor begins where the input has ended. -/
theorem factorWithin_of_end (hend : p.lookahead = .endOfInput) (budget : Nat) :
    factorWithin budget p = .error (p.misplaced .integer) p := by
  cases budget with
  | zero => exact factorBy_of_ne (by simp [hend]) (by simp [hend])
  | succ budget => exact factorBy_of_ne (by simp [hend]) (by simp [hend])

/-- A chain fails as its first operand does. -/
theorem chain_of_error {level : Level} {operand : Rule Binary64} {fault : Fault}
    (h : operand p = .error fault q) : chain level operand p = .error fault q := by
  rw [chain_eq, h]
  rfl

/-- **The end is the end.**  Where the input has ended, a call leaves the lookahead, its place and
    the depth as they are. -/
theorem Reached.run_of_end (h : Reached settings text n p) (hend : p.lookahead = .endOfInput)
    (call : Call) :
    (ending (call.run p)).lookahead = .endOfInput ∧
      (ending (call.run p)).position = p.position ∧
      (ending (call.run p)).depth = p.depth := by
  have hsame : p.lookahead = .endOfInput ∧ p.position = p.position ∧ p.depth = p.depth :=
    ⟨hend, rfl, rfl⟩
  have hfactor := factorWithin_of_end hend p.budget
  have hterm : term p = .error (p.misplaced .integer) p := chain_of_error hfactor
  have hexpr : expr p = .error (p.misplaced .integer) p := chain_of_error hterm
  rcases call with kind | _ | (_ | _) | _
  case eat =>
    rw [Call.run, run_bind]
    rcases eat_cases kind p with ⟨token, _, hfront, heat⟩ | ⟨x, _, hfront, _⟩ | ⟨_, heat⟩
    · rw [h.ready.front_of_end hend] at hfront
      cases hfront
      rw [heat, andThen_ok]
      refine ⟨rfl, ?_, rfl⟩
      show p.cursor.front.position = p.position
      rw [h.ready.front_of_end hend, (h.ready.pending_of_end hend).2]
    · rw [h.ready.front_of_end hend] at hfront
      cases hfront
    · rw [heat]
      exact hsame
  case factor =>
    have hrun : factor p = .error (p.misplaced .integer) p := hfactor
    rw [Call.run, Call.valued_eq, hrun]
    exact hsame
  case chain.sum =>
    rw [Call.run, Call.valued_eq, hexpr]
    exact hsame
  case chain.product =>
    rw [Call.run, Call.valued_eq, hterm]
    exact hsame
  case parse =>
    rw [Call.run, Call.valued_eq, parse_eq, hexpr]
    exact hsame

/-! ## The result -/

/-- What is so at every moment of a call of a parser that was `p` when the call was made. -/
structure Kept (settings : Settings) (text : String) (p : Parser) (m : Moment) : Prop where
  /-- The lookahead is the last token that the cursor has handed out, at its place. -/
  last_read : ∃ n, m.parser.cursor = (Cursor.ofText text).skip n ∧
    (Cursor.ofText text).lastRead n = some (m.parser.lookahead, m.parser.position)
  /-- As many parentheses more are open as have been entered and wait for their expressions. -/
  depth_eq : m.parser.depth = p.depth + opened m.waiting
  depth_le : m.parser.depth ≤ settings.maxDepth
  /-- The depth is raised only where it stays within the limit, -/
  raise_le : m.Raises → m.parser.depth + 1 ≤ settings.maxDepth
  /-- lowered only where it is not zero, -/
  lower_pos : m.Lowers → 1 ≤ m.parser.depth
  /-- and not changed anywhere else. -/
  stays : ∀ m', step m = some m' → ¬ m.Raises → ¬ m.Lowers → m'.parser.depth = m.parser.depth
  /-- The lookahead does not move back. -/
  position_le : ∀ m', Leads m m' → m.parser.position ≤ m'.parser.position

/-- What is so at every moment is as it is to be. -/
theorem Regular.kept (h : Regular settings text p.depth m) : Kept settings text p m := by
  obtain ⟨n, hreached⟩ := h.held.reached
  refine ⟨⟨n, hreached.cursor_eq, hreached.lookahead_eq⟩, h.held.depth_eq, h.held.depth_le, ?_, ?_,
    fun m' hstep => (h.step (step_cases hstep)).2.2, fun m' hleads => (h.leads hleads).2⟩
  · intro hraises
    have hsound := h.sound
    rw [Moment.Raises] at hraises
    rw [hraises] at hsound
    rw [← hreached.settings_eq]
    exact hsound.2
  · rintro ⟨value, waiting, _, hwaiting⟩
    have hheld := h.held
    rw [hwaiting] at hheld
    exact hheld.depth_pos

/-- Nothing waits where a call has come to a value. -/
theorem Moment.waiting_of_result {value : Option Binary64} (h : m.result? = some (.ok value q)) :
    m.waiting = [] := by
  rcases Moment.result_cases h with ⟨_, _, rfl, _⟩ | ⟨_, rfl, _⟩ | ⟨_, _, _, _, hresult⟩
  · rfl
  · rfl
  · cases hresult

/-- **Every call keeps account.**  Take a parser that was made behind any number of steps through a
    text, after any calls, and call it once more.  There is a course of moments that ends with what
    the call comes to, and at each of them the account is right.  A value leaves the depth as it was
    before the call.  A fault leaves it raised by the parentheses that have been entered and still
    wait for their expressions where the fault is found.  Where the input had ended before the call,
    the lookahead, its place and the depth are what they were. -/
theorem kept_by_every_call {settings : Settings} {text : String} {k : Nat} {start : Parser}
    (hstart : Parser.start settings ((Cursor.ofText text).skip k) = .ok start)
    (calls : List Call) (call : Call) :
    (∃ last, Leads (call.begin (after calls start)) last ∧
      last.result? = some (call.run (after calls start)) ∧
      (∀ m, Leads (call.begin (after calls start)) m →
        Leads m last ∧ Kept settings text (after calls start) m) ∧
      match call.run (after calls start) with
      | .ok _ q => q.depth = (after calls start).depth
      | .error _ q => q.depth = (after calls start).depth + opened last.waiting) ∧
    ((after calls start).lookahead = .endOfInput →
      (ending (call.run (after calls start))).lookahead = .endOfInput ∧
      (ending (call.run (after calls start))).position = (after calls start).position ∧
      (ending (call.run (after calls start))).depth = (after calls start).depth) := by
  have havailable := (available_of_start hstart).after calls
  obtain ⟨n, hreached⟩ := havailable.reached
  obtain ⟨last, hlast, hresult, hregular⟩ := havailable.exists_course call
  refine ⟨⟨last, hlast, hresult, fun m hm => ⟨hlast.of_result hresult hm, ?_⟩, ?_⟩,
    fun hend => hreached.run_of_end hend call⟩
  · exact ((havailable.regular call).leads hm).1.kept
  · have hdepth := hregular.held.depth_eq
    rw [Moment.parser_of_result hresult] at hdepth
    rcases hrun : call.run (after calls start) with ⟨value, q⟩ | ⟨fault, q⟩
    · rw [hrun] at hdepth hresult
      rw [Moment.waiting_of_result hresult] at hdepth
      exact hdepth
    · rw [hrun] at hdepth
      exact hdepth

/-- Of three parentheses, the first is not closed because the last is not: one is left open. -/
theorem kept_where_parenthesis_is_missing :
    ∃ start, Parser.start { maxDepth := 3 } ((Cursor.ofText "?((1)+(2").skip 1) = .ok start ∧
      (after [.eat .rightParen] start).depth = 0 ∧
      ∃ last : Moment,
        last.result? = some (Call.run (.chain .sum) (after [.eat .rightParen] start)) ∧
          opened last.waiting = 1 ∧ last.parser.depth = 1 := by
  have hstart : Parser.start { maxDepth := 3 } ((Cursor.ofText "?((1)+(2").skip 1) =
      .ok ⟨{ maxDepth := 3 }, (Cursor.ofText "?((1)+(2").skip 2, .leftParen, 1, 0,
        #[.read .leftParen 1]⟩ := by
    decide +kernel
  obtain ⟨⟨last, hlast, hresult, hkept, _⟩, _⟩ :=
    kept_by_every_call hstart [.eat .rightParen] (.chain .sum)
  have hdepth := (hkept last hlast).2.depth_eq
  have hparser := Moment.parser_of_result hresult
  generalize hp : after [.eat .rightParen] _ = p at hdepth hparser hresult
  have hbefore : p.depth = 0 := by
    rw [← hp]
    decide +kernel
  have hafter : last.parser.depth = 1 := by
    rw [hparser, ← hp]
    decide +kernel
  rw [hafter, hbefore, Nat.zero_add] at hdepth
  exact ⟨_, hstart, by rw [hp]; exact hbefore, last, by rw [hp]; exact hresult, hdepth.symm, hafter⟩

end Parser

end Calculator
