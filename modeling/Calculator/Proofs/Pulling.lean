/-
  What an evaluation pulls.

  Problem: a parser asks its cursor for one piece after the other.  Say how many steps of the cursor
  an evaluation has taken when it ends, whichever way it ends, and what it has been handed.

  1. **Steps** — `Cursor.front` is what the next step of a cursor hands out, the end included, and
     `Cursor.steps` what so many of them do.

  2. **Count** — `pulls`: one step for every token that has been read, and one more for the stray
     that an evaluation breaks off at, since a stray is handed out but never read.

  3. **The crux (`Parser.Pulled`)** — a rule takes some steps and nothing else: the cursor is that
     many steps on, the tokens among them have been read, and that many tokens fewer remain.  The
     last of these says that a rule never asks again where the input has ended.  It goes through
     sequences (`Pulled.andThen`), and so through all rules, rounds by their bound and factors by
     how many parentheses may still be opened.

  4. **Result (`Evaluation.cursor_eq_skip`)** — the cursor that an evaluation leaves behind is the
     one it began with, after as many steps as are counted.
-/
import Calculator.Proofs.TwoPasses

namespace Calculator

variable {α β γ : Type}

/-! ## Steps of a cursor -/

namespace Cursor

/-- What the next step hands out, at its place: the first of the pieces to come, or the end. -/
def front (c : Cursor) : Placed :=
  match c.pending with
  | [] => ⟨.token .endOfInput, c.length⟩
  | piece :: _ => piece.placed

/-- What so many steps hand out. -/
def steps : Cursor → Nat → List Placed
  | _, 0 => []
  | c, n + 1 => c.front :: steps c.next.2 n

theorem front_of_nil {c : Cursor} (h : c.pending = []) :
    c.front = ⟨.token .endOfInput, c.length⟩ := by
  rw [front, h]

theorem front_of_cons {c : Cursor} {piece : Lexeme} {rest : List Lexeme}
    (h : c.pending = piece :: rest) : c.front = piece.placed := by
  rw [front, h]

/-- A step goes to the place of what it hands out. -/
theorem position_next (c : Cursor) : c.next.2.position = c.front.position := by
  rcases h : c.pending with _ | ⟨piece, rest⟩
  · rw [next_of_nil h, front_of_nil h]
    rfl
  · rw [next_of_cons h, front_of_cons h]
    rfl

/-- A token is handed out as such. -/
theorem next_of_token {c : Cursor} {token : Token} (h : c.front.reading = .token token) :
    c.next.1 = .ok token := by
  rcases hpending : c.pending with _ | ⟨piece, rest⟩
  · rw [front_of_nil hpending] at h
    cases h
    rw [next_of_nil hpending]
  · rw [front_of_cons hpending] at h
    have hreading : piece.reading = .token token := h
    rw [next_of_cons hpending, hreading]

/-- A stray is handed out as a fault. -/
theorem next_of_stray {c : Cursor} {x : Char} (h : c.front.reading = .stray x) :
    c.next.1 = .error ⟨.strayCharacter x, c.front.position⟩ := by
  rcases hpending : c.pending with _ | ⟨piece, rest⟩
  · rw [front_of_nil hpending] at h
    cases h
  · rw [front_of_cons hpending] at h ⊢
    have hreading : piece.reading = .stray x := h
    rw [next_of_cons hpending, hreading]
    rfl

/-- What comes first of the pieces to come, or the end behind them. -/
theorem front_eq_headD (c : Cursor) :
    c.front = (c.pending.map Lexeme.placed).headD ⟨.token .endOfInput, c.length⟩ := by
  rcases h : c.pending with _ | ⟨piece, rest⟩
  · exact front_of_nil h
  · exact front_of_cons h

theorem skip_add (c : Cursor) (n m : Nat) : c.skip (n + m) = (c.skip n).skip m := by
  induction n generalizing c with
  | zero => rw [Nat.zero_add, skip]
  | succ n ih =>
    rw [Nat.succ_add, skip, skip, ih]

theorem steps_add (c : Cursor) (n m : Nat) : c.steps (n + m) = c.steps n ++ (c.skip n).steps m := by
  induction n generalizing c with
  | zero => rw [Nat.zero_add, skip, steps, List.nil_append]
  | succ n ih =>
    rw [Nat.succ_add, steps, steps, ih, skip, List.cons_append]

/-- The first steps hand out the pieces, as long as there are enough of them. -/
theorem steps_eq_take {c : Cursor} {n : Nat} (h : n ≤ c.pending.length) :
    c.steps n = (c.pending.map Lexeme.placed).take n := by
  induction n generalizing c with
  | zero => rfl
  | succ n ih =>
    rcases hpending : c.pending with _ | ⟨piece, rest⟩
    · rw [hpending] at h
      cases h
    · have hrest : c.next.2.pending = rest := by
        rw [pending_next, hpending]
        rfl
      rw [hpending, List.length_cons] at h
      rw [steps, front_of_cons hpending, ih (by rw [hrest]; omega), hrest]
      rfl

end Cursor

/-- The token that was handed out, with its place, unless it was a stray. -/
def Placed.read? (here : Placed) : Option (Token × Nat) :=
  here.reading.token?.map fun token => (token, here.position)

/-! ## Counting -/

/-- How many of the steps before a fault have handed out something else than a token: the last one,
    if the fault is a stray. -/
def Cause.strays : Cause → Nat
  | .strayCharacter _ => 1
  | .unexpected _ _ | .nestedTooDeep _ | .divisionByZero | .overflow => 0

theorem Cause.IsArithmetic.strays_eq {cause : Cause} (h : cause.IsArithmetic) :
    cause.strays = 0 := by
  rcases h with rfl | rfl <;> rfl

/-- The state in which an action ends. -/
def ending : EStateM.Result Fault Parser α → Parser
  | .ok _ q | .error _ q => q

/-- How many steps a parser has taken in all when an action ends. -/
def pulls : EStateM.Result Fault Parser α → Nat
  | .ok _ q => q.reads.length
  | .error fault q => q.reads.length + fault.cause.strays

/-! ## Rules -/

namespace Parser

/-- An action that began in `p` and has come to `result` has taken `n` steps, and has read the tokens
    among them. -/
structure Stepped (p : Parser) (n : Nat) (result : EStateM.Result Fault Parser α) : Prop where
  cursor_eq : (ending result).cursor = p.cursor.skip n
  reads_eq : (ending result).reads = p.reads ++ (p.cursor.steps n).filterMap Placed.read?
  pulls_eq : pulls result = p.reads.length + n

/-- The action has done nothing else to what lies ahead, and has never asked again where the input has
    ended.  If it has ended well, so many parentheses are open. -/
structure Pulled (settings : Settings) (finish : Nat) (p : Parser) (n : Nat)
    (result : EStateM.Result Fault Parser α) (depth : Nat) : Prop extends Stepped p n result where
  ready : (ending result).Ready settings finish
  /-- Every step has used up a token. -/
  remaining_eq : n + (ending result).remaining = p.remaining
  depth_eq : ∀ a q, result = .ok a q → q.depth = depth

/-- The action takes some steps, from wherever it begins, and closes the parentheses that it opens
    unless there is a fault. -/
def Pulls (settings : Settings) (finish : Nat) (action : Rule α) : Prop :=
  ∀ p, p.Ready settings finish → ∃ n, Pulled settings finish p n (action p) p.depth

variable {settings : Settings} {finish n depth depth' : Nat} {p : Parser}

/-- Reading is never taken back. -/
theorem Stepped.length_reads_le {result : EStateM.Result Fault Parser α} (h : Stepped p n result) :
    p.reads.length ≤ pulls result := by
  rw [h.pulls_eq]
  exact Nat.le_add_right _ _

theorem Pulled.ready_of_ok {a : α} {q : Parser}
    (h : Pulled settings finish p n (.ok a q) depth) : q.Ready settings finish := h.ready

/-- **One after the other.**  The steps of a sequence are those of its members. -/
theorem Stepped.andThen_ok {a : α} {q : Parser} {m : Nat}
    {action : α → Parser → EStateM.Result Fault Parser β}
    (h : Stepped p n (.ok a q : EStateM.Result Fault Parser α)) (hm : Stepped q m (action a q)) :
    Stepped p (n + m) (andThen (.ok a q) action) := by
  have hcursor : q.cursor = p.cursor.skip n := h.cursor_eq
  have hreads : q.reads = p.reads ++ (p.cursor.steps n).filterMap Placed.read? := h.reads_eq
  have hpulls : q.reads.length = p.reads.length + n := h.pulls_eq
  refine ⟨?_, ?_, ?_⟩
  · rw [andThen, hm.cursor_eq, hcursor, Cursor.skip_add]
  · rw [andThen, hm.reads_eq, hreads, hcursor, Cursor.steps_add, List.filterMap_append,
      List.append_assoc]
  · rw [andThen, hm.pulls_eq, hpulls, Nat.add_assoc]

/-- What follows a fault takes no steps. -/
theorem Stepped.andThen_error {fault : Fault} {q : Parser}
    {action : α → Parser → EStateM.Result Fault Parser β}
    (h : Stepped p n (.error fault q : EStateM.Result Fault Parser α)) :
    Stepped p n (andThen (.error fault q) action) :=
  ⟨h.cursor_eq, h.reads_eq, h.pulls_eq⟩

/-- Sequences take steps, if their members do. -/
theorem Pulled.andThen {result : EStateM.Result Fault Parser α}
    {action : α → Parser → EStateM.Result Fault Parser β}
    (h : Pulled settings finish p n result depth)
    (haction : ∀ a q, q.Ready settings finish → q.depth = depth →
      ∃ m, Pulled settings finish q m (action a q) depth') :
    ∃ m, Pulled settings finish p m (andThen result action) depth' := by
  rcases result with ⟨a, q⟩ | ⟨fault, q⟩
  · obtain ⟨m, hm⟩ := haction a q h.ready (h.depth_eq a q rfl)
    refine ⟨n + m, h.toStepped.andThen_ok hm.toStepped, hm.ready, ?_, hm.depth_eq⟩
    have hfirst : n + q.remaining = p.remaining := h.remaining_eq
    have hmore : m + (ending (action a q)).remaining = q.remaining := hm.remaining_eq
    rw [Calculator.andThen]
    omega
  · exact ⟨n, h.toStepped.andThen_error, h.ready, h.remaining_eq, fun _ _ hr => by cases hr⟩

/-- Nothing happens. -/
theorem pulled_ok (h : p.Ready settings finish) (a : α) :
    Pulled settings finish p 0 (.ok a p : EStateM.Result Fault Parser α) p.depth := by
  refine ⟨⟨rfl, (List.append_nil _).symm, rfl⟩, h, Nat.zero_add _, ?_⟩
  rintro b q ⟨⟩
  rfl

/-- A fault that is found without taking a step. -/
theorem pulled_error (h : p.Ready settings finish) {fault : Fault} (hfault : fault.cause.strays = 0) :
    Pulled settings finish p 0 (.error fault p : EStateM.Result Fault Parser α) depth := by
  refine ⟨⟨rfl, (List.append_nil _).symm, ?_⟩, h, Nat.zero_add _, fun _ _ hr => by cases hr⟩
  rw [pulls, hfault]

/-- A value that is there, or a fault that lies in the numbers. -/
theorem pulled_ofExcept (h : p.Ready settings finish) (value : Except Fault α)
    (hvalue : ∀ fault, value = .error fault → fault.cause.IsArithmetic) :
    Pulled settings finish p 0 ((ofExcept value : Rule α) p) p.depth := by
  rcases value with fault | a
  · exact pulled_error h (hvalue fault rfl).strays_eq
  · exact pulled_ok h a

/-- Only what is read and what is still to come counts at the beginning. -/
theorem Pulled.of_eq {q : Parser} {result : EStateM.Result Fault Parser α}
    (h : Pulled settings finish q n result depth) (hcursor : q.cursor = p.cursor)
    (hreads : q.reads = p.reads) (hremaining : q.remaining = p.remaining) :
    Pulled settings finish p n result depth :=
  ⟨⟨hcursor ▸ h.cursor_eq, hcursor ▸ hreads ▸ h.reads_eq, hreads ▸ h.pulls_eq⟩, h.ready,
    hremaining ▸ h.remaining_eq, h.depth_eq⟩

/-! ## Reading tokens -/

/-- The parser whose lookahead is the token in front of its cursor. -/
def looking (p : Parser) (token : Token) : Parser :=
  { p with
    cursor := p.cursor.next.2
    lookahead := token
    position := p.cursor.front.position
    events := p.events.push (.read token p.cursor.front.position) }

theorem advance_of_token {token : Token} (h : p.cursor.front.reading = .token token) :
    advance p = .ok () (p.looking token) := by
  have hnext := Cursor.next_of_token h
  have hposition := p.cursor.position_next
  rw [advance]
  split
  · next token' behind heq =>
    rw [heq] at hnext hposition
    cases hnext
    rw [looking, ← hposition, heq]
  · next fault behind heq =>
    rw [heq] at hnext
    cases hnext

theorem advance_of_stray {x : Char} (h : p.cursor.front.reading = .stray x) :
    advance p = .error ⟨.strayCharacter x, p.cursor.front.position⟩
      { p with cursor := p.cursor.next.2 } := by
  have hnext := Cursor.next_of_stray h
  rw [advance]
  split
  · next token behind heq =>
    rw [heq] at hnext
    cases hnext
  · next fault behind heq =>
    rw [heq] at hnext
    cases hnext
    rw [heq]

/-- Where the input has ended, only the end is handed out. -/
theorem Ready.front_of_end (h : p.Ready settings finish) (hend : p.lookahead = .endOfInput) :
    p.cursor.front = ⟨.token .endOfInput, finish⟩ := by
  rw [Cursor.front_of_nil (h.pending_of_end hend).1, h.length_eq]

/-- Where a cursor hands out the end, no pieces are left. -/
theorem Ready.pending_of_front (h : p.Ready settings finish)
    (hend : p.cursor.front.reading = .token .endOfInput) : p.cursor.pending = [] := by
  rcases hpending : p.cursor.pending with _ | ⟨piece, rest⟩
  · rfl
  · rw [Cursor.front_of_cons hpending] at hend
    exact absurd hend (h.no_end piece (hpending ▸ List.mem_cons_self))

/-- Looking at the next token takes a parser that is ready to one that is. -/
theorem Ready.looking {token : Token} (h : p.Ready settings finish)
    (hfront : p.cursor.front.reading = .token token) :
    (p.looking token).Ready settings finish := by
  refine ⟨h.settings_eq, ?_, ?_, ?_⟩
  · rw [Parser.looking, Cursor.length_next]
    exact h.length_eq
  · rintro rfl
    have hpending := h.pending_of_front hfront
    refine ⟨?_, ?_⟩
    · rw [Parser.looking, Cursor.pending_next, hpending]
      rfl
    · show p.cursor.front.position = finish
      rw [Cursor.front_of_nil hpending]
      exact h.length_eq
  · intro piece hpiece
    rw [Parser.looking, Cursor.pending_next] at hpiece
    exact h.no_end piece (List.mem_of_mem_tail hpiece)

/-- The token that is looked at has been read. -/
theorem reads_looking (p : Parser) (token : Token) :
    (p.looking token).reads = p.reads ++ [(token, p.cursor.front.position)] := by
  simp [reads, looking, Event.read?]

/-- Where the input has not ended, one more step leaves one token fewer. -/
theorem Ready.remaining_looking {token : Token} (h : p.Ready settings finish)
    (hfront : p.cursor.front.reading = .token token) (hlook : p.lookahead ≠ .endOfInput) :
    1 + (p.looking token).remaining = p.remaining := by
  have hready := h.looking hfront
  rw [hready.remaining_eq, h.remaining_eq, ahead_of_ne rfl hlook]
  rcases hpending : p.cursor.pending with _ | ⟨piece, rest⟩
  · have hend : token = .endOfInput := by
      rw [Cursor.front_of_nil hpending] at hfront
      cases hfront
      rfl
    rw [ahead_of_end hend]
    rfl
  · have hne : (p.looking token).lookahead ≠ .endOfInput := by
      rintro rfl
      rw [h.pending_of_front hfront] at hpending
      cases hpending
    rw [ahead_of_ne rfl hne, Parser.looking, Cursor.pending_next, hpending]
    simp [Nat.add_comm]

/-- Looking at the next token takes a step. -/
theorem stepped_looking {token : Token} (hfront : p.cursor.front.reading = .token token) (a : α) :
    Stepped p 1 (.ok a (p.looking token) : EStateM.Result Fault Parser α) := by
  have hsteps : p.cursor.steps 1 = [p.cursor.front] := rfl
  refine ⟨rfl, ?_, ?_⟩
  · show (p.looking token).reads = _
    rw [reads_looking, hsteps, List.filterMap_cons, Placed.read?, hfront]
    rfl
  · show (p.looking token).reads.length = _
    rw [reads_looking, List.length_append]
    rfl

/-- A token is consumed by one step, unless it is the end. -/
theorem pulled_advance (h : p.Ready settings finish) (hlook : p.lookahead ≠ .endOfInput) :
    Pulled settings finish p 1 (advance p) p.depth := by
  have hsteps : p.cursor.steps 1 = [p.cursor.front] := rfl
  rcases hfront : p.cursor.front.reading with token | x
  · rw [advance_of_token hfront]
    refine ⟨stepped_looking hfront (), h.looking hfront, h.remaining_looking hfront hlook, ?_⟩
    rintro _ q ⟨⟩
    rfl
  · rw [advance_of_stray hfront]
    obtain ⟨piece, rest, hpending⟩ : ∃ piece rest, p.cursor.pending = piece :: rest := by
      rcases hpending : p.cursor.pending with _ | ⟨piece, rest⟩
      · rw [Cursor.front_of_nil hpending] at hfront
        cases hfront
      · exact ⟨piece, rest, rfl⟩
    have hready : ({ p with cursor := p.cursor.next.2 } : Parser).Ready settings finish := by
      refine ⟨h.settings_eq, ?_, fun hend => absurd hend hlook, ?_⟩
      · rw [Cursor.length_next]
        exact h.length_eq
      · intro piece hpiece
        rw [Cursor.pending_next] at hpiece
        exact h.no_end piece (List.mem_of_mem_tail hpiece)
    refine ⟨⟨rfl, ?_, rfl⟩, hready, ?_, fun _ _ hr => by cases hr⟩
    · rw [hsteps, List.filterMap_cons, Placed.read?, hfront]
      exact (List.append_nil _).symm
    · have hahead : ({ p with cursor := p.cursor.next.2 } : Parser).ahead =
          ⟨.token p.lookahead, p.position⟩ :: rest.map Lexeme.placed := by
        have hsame := ahead_of_ne (p := { p with cursor := p.cursor.next.2 }) rfl hlook
        rw [hsame, Cursor.pending_next, hpending]
        rfl
      show 1 + ({ p with cursor := p.cursor.next.2 } : Parser).remaining = _
      rw [hready.remaining_eq, h.remaining_eq, ahead_of_ne rfl hlook, hahead, hpending]
      simp [Nat.add_comm]

/-- Where a token of another kind than the end is the lookahead, the input has not ended. -/
theorem ne_end_of_kind {kind : TokenKind} (h : p.lookahead.kind = kind)
    (hkind : kind ≠ .endOfInput) : p.lookahead ≠ .endOfInput := by
  intro hend
  rw [hend] at h
  exact hkind h.symm

/-- Nothing but tokens are consumed. -/
theorem pulls_eat (kind : TokenKind) (hkind : kind ≠ .endOfInput) :
    Pulls settings finish (eat kind) := by
  intro p h
  by_cases hlook : p.lookahead.kind = kind
  · rw [eat_of_kind_eq hlook]
    exact ⟨1, pulled_advance h (ne_end_of_kind hlook hkind)⟩
  · rw [eat_of_kind_ne hlook]
    exact ⟨0, pulled_error h rfl⟩

/-! ## Chains -/

/-- An operator is applied without taking a step, and then come rounds. -/
theorem pulled_apply {next : Binary64 → Rule Binary64}
    (hnext : ∀ value, Pulls settings finish (next value)) (op : Operator) (left right : Binary64)
    (position : Nat) (h : p.Ready settings finish) :
    ∃ m, Pulled settings finish p m
      (andThen ((ofExcept (op.apply left right position) : Rule Binary64)
        (p.recorded (.applied op left right position))) fun value q => next value q) p.depth := by
  have hreads : (p.recorded (.applied op left right position)).reads = p.reads :=
    reads_recorded rfl
  have hvalue := pulled_ofExcept (h.recorded (.applied op left right position))
    (op.apply left right position) fun fault hfault => (Operator.fault_of_apply hfault).2
  have hvalue' : Pulled settings finish p 0
      ((ofExcept (op.apply left right position) : Rule Binary64)
        (p.recorded (.applied op left right position))) p.depth := hvalue.of_eq rfl hreads rfl
  refine hvalue'.andThen fun value q hq hdepth => ?_
  rw [← hdepth]
  exact hnext value q hq

/-- **Rounds take steps**, if their operands do. -/
theorem pulls_rounds {level : Level} {operand : Rule Binary64}
    (hoperand : Pulls settings finish operand) :
    ∀ n left, Pulls settings finish (rounds level operand n left) := by
  intro n
  induction n with
  | zero => exact fun left p h => ⟨0, pulled_ok h left⟩
  | succ n ih =>
    intro left p h
    rcases hop : operatorOf level p with _ | op
    · rw [rounds_of_operatorOf_eq_none hop]
      exact ⟨0, pulled_ok h left⟩
    · rw [rounds_of_operatorOf hop]
      obtain ⟨_, heat⟩ := pulls_eat (.operator op) (by simp) p h
      refine heat.andThen fun _ q hq hdepth => ?_
      obtain ⟨_, hright⟩ := hoperand q hq
      refine hright.andThen fun right r hr hdepth' => ?_
      rw [← hdepth, ← hdepth']
      exact pulled_apply ih op left right p.position hr

/-- What follows a result need only be known where the result is one. -/
theorem andThen_congr {result : EStateM.Result Fault Parser α}
    {action action' : α → Parser → EStateM.Result Fault Parser β}
    (h : ∀ a q, result = .ok a q → action a q = action' a q) :
    andThen result action = andThen result action' := by
  cases result with
  | ok a q => exact h a q rfl
  | error fault q => rfl

/-- **The bound of the rounds plays no part** as long as it is not below the number of tokens that
    remain: every round uses one of them up. -/
theorem rounds_congr {level : Level} {operand : Rule Binary64}
    (hoperand : Pulls settings finish operand) :
    ∀ {n m : Nat} {left : Binary64} {p : Parser}, p.Ready settings finish → p.remaining ≤ n →
      p.remaining ≤ m → rounds level operand n left p = rounds level operand m left p := by
  intro n
  induction n with
  | zero =>
    intro m left p _ hn _
    have hop : operatorOf level p = none := operatorOf_eq_none_of_remaining (Nat.le_zero.1 hn)
    rw [rounds_of_operatorOf_eq_none hop, rounds_of_operatorOf_eq_none hop]
  | succ n ih =>
    intro m left p h hn hm
    rcases hop : operatorOf level p with _ | op
    · rw [rounds_of_operatorOf_eq_none hop, rounds_of_operatorOf_eq_none hop]
    · have hlook : p.lookahead ≠ .endOfInput :=
        ne_end_of_kind (kind_of_operatorOf hop) (by simp)
      have hpos : 0 < p.remaining := by
        rw [remaining, if_neg hlook]
        omega
      obtain ⟨m, rfl⟩ : ∃ m', m = m' + 1 := ⟨m - 1, by omega⟩
      rw [rounds_of_operatorOf hop, rounds_of_operatorOf hop,
        eat_of_kind_eq (kind_of_operatorOf hop)]
      have heat := pulled_advance h hlook
      refine andThen_congr fun _ q hq => ?_
      rw [hq] at heat
      have hused : 1 + q.remaining = p.remaining := heat.remaining_eq
      obtain ⟨k, hright⟩ := hoperand q heat.ready
      refine andThen_congr fun right r hr => ?_
      rw [hr] at hright
      have hused' : k + r.remaining = q.remaining := hright.remaining_eq
      have hready : r.Ready settings finish := hright.ready
      rcases op.apply left right p.position with fault | value
      · rfl
      · refine ih (hready.recorded _) ?_ ?_
        · show r.remaining ≤ n
          omega
        · show r.remaining ≤ m
          omega

/-- A chain, taken apart into its operand and its rounds. -/
theorem chain_eq (level : Level) (operand : Rule Binary64) (p : Parser) :
    chain level operand p =
      andThen (operand p) fun first q => rounds level operand q.remaining first q := by
  simp only [chain, run_bind, run_get, andThen_ok]

/-- Chains take steps. -/
theorem pulls_chain {level : Level} {operand : Rule Binary64}
    (hoperand : Pulls settings finish operand) :
    Pulls settings finish (chain level operand) := by
  intro p h
  rw [chain_eq]
  obtain ⟨_, hfirst⟩ := hoperand p h
  refine hfirst.andThen fun first q hq hdepth => ?_
  rw [← hdepth]
  exact pulls_rounds hoperand q.remaining first q hq

/-- Expressions take steps. -/
theorem pulls_exprBy {factor : Rule Binary64} (hfactor : Pulls settings finish factor) :
    Pulls settings finish (exprBy factor) :=
  pulls_chain (pulls_chain hfactor)

/-! ## Factors -/

/-- A token is consumed behind a value that is kept. -/
theorem pulled_eat_then (kind : TokenKind) (hkind : kind ≠ .endOfInput) (value : α)
    (h : p.Ready settings finish) :
    ∃ m, Pulled settings finish p m (andThen (eat kind p) fun _ q => .ok value q) p.depth := by
  obtain ⟨_, heat⟩ := pulls_eat kind hkind p h
  refine heat.andThen fun _ q hq hdepth => ?_
  rw [← hdepth]
  exact ⟨0, pulled_ok hq value⟩

/-- A literal takes one step, unless it is too large. -/
theorem pulls_integer (literal : Literal) : Pulls settings finish (integer literal) := by
  intro p h
  obtain ⟨hready, hreads, _, hlook⟩ := h.noted literal
  obtain ⟨hcursor, hdepth⟩ : (p.noted literal).cursor = p.cursor ∧
      (p.noted literal).depth = p.depth := by
    cases literal <;> exact ⟨rfl, rfl⟩
  have hremaining : (p.noted literal).remaining = p.remaining := by
    rw [remaining, remaining, hcursor, hlook]
  have hvalue := pulled_ofExcept hready (literal.toBinary64.checked p.position)
    fun fault hfault => by rw [Binary64.fault_of_checked hfault]; exact .inr rfl
  rw [integer_eq, ← hdepth]
  refine (hvalue.of_eq hcursor hreads hremaining).andThen fun value q hq hsame => ?_
  rw [← hsame]
  exact pulled_eat_then .integer (by simp) value hq

/-- Parentheses take steps, if what stands in them does, and the depth is the one before them. -/
theorem pulls_group {inner : Rule Binary64} (hinner : Pulls settings finish inner) :
    Pulls settings finish (group inner) := by
  intro p h
  rw [group_eq]
  obtain ⟨_, hopen⟩ := pulls_eat .leftParen (by simp) p h
  refine hopen.andThen fun _ q hq hdepth => ?_
  obtain ⟨n, hinside⟩ := hinner _ (hq.withDepth (q.depth + 1))
  have hinside' : Pulled settings finish q n (inner { q with depth := q.depth + 1 })
      (q.depth + 1) := hinside.of_eq rfl rfl rfl
  refine hinside'.andThen fun value r hr hdeeper => ?_
  obtain ⟨m, hclose⟩ := pulled_eat_then .rightParen (by simp) value
    (hr.withDepth (r.depth - 1))
  have hsame : r.depth - 1 = p.depth := by omega
  rw [← hsame]
  exact ⟨m, hclose.of_eq rfl rfl rfl⟩

/-- Factors take steps, if what begins with a parenthesis does. -/
theorem pulls_factorBy {parenthesized : Rule Binary64}
    (h : Pulls settings finish parenthesized) :
    Pulls settings finish (factorBy parenthesized) := by
  intro p hp
  rcases hlook : p.lookahead with literal | op | _ | _ | _
  case integer =>
    rw [factorBy_of_integer hlook]
    exact pulls_integer literal p hp
  case leftParen =>
    rw [factorBy_of_leftParen hlook]
    exact h p hp
  all_goals
    rw [factorBy_of_ne (by simp [hlook]) (by simp [hlook])]
    exact ⟨0, pulled_error hp rfl⟩

/-- **Factors take steps**, by induction on how many more parentheses may be opened. -/
theorem pulls_factorWithin (settings : Settings) (finish : Nat) :
    ∀ budget, Pulls settings finish (factorWithin budget) := by
  intro budget
  induction budget with
  | zero => exact pulls_factorBy fun p h => ⟨0, pulled_error h rfl⟩
  | succ budget ih => exact pulls_factorBy (pulls_group (pulls_exprBy ih))

/-- So do expressions. -/
theorem pulls_expr (settings : Settings) (finish : Nat) : Pulls settings finish expr :=
  fun p h => pulls_exprBy (pulls_factorWithin settings finish p.budget) p h

/-! ## What is left over -/

/-- What becomes of the value of an expression when what follows it is dealt with. -/
def settle (value : Binary64) (q : Parser) : EStateM.Result Fault Parser Binary64 :=
  match q.settings.trailing with
  | .ignored =>
    .ok value (if q.lookahead = .endOfInput then q else q.recorded (.ignored q.position))
  | .rejected => andThen (eat .endOfInput q) fun _ r => .ok value r

/-- A whole text is an expression and what follows it. -/
theorem parse_eq (p : Parser) : parse p = andThen (expr p) settle := by
  rw [parse, run_bind]
  congr 1
  funext value q
  rw [run_bind, run_get, andThen_ok, settle]
  rcases q.settings.trailing with _ | _
  · by_cases hend : q.lookahead = .endOfInput
    · simp only [hend, ne_eq, not_true_eq_false, if_false, if_true, run_pure]
    · simp only [hend, ne_eq, not_false_eq_true, if_true, if_false, run_bind, run_record, run_pure,
        andThen_ok]
  · simp only [run_bind, run_pure]

/-- What is ignored is not pulled. -/
theorem pulled_settle_ignored (h : p.Ready settings finish) (hignored : settings.trailing = .ignored)
    (value : Binary64) : Pulled settings finish p 0 (settle value p) p.depth := by
  rw [settle, h.settings_eq, hignored]
  by_cases hend : p.lookahead = .endOfInput
  · simp only [hend, if_true]
    exact pulled_ok h value
  · simp only [hend, if_false]
    have hreads : (p.recorded (.ignored p.position)).reads = p.reads := reads_recorded rfl
    exact (pulled_ok (h.recorded _) value).of_eq rfl hreads rfl

/-- Where the input has to end and does, the value stands. -/
theorem settle_of_end (h : p.Ready settings finish) (hrejected : settings.trailing = .rejected)
    (hend : p.lookahead = .endOfInput) (value : Binary64) :
    settle value p = .ok value (p.looking .endOfInput) := by
  have hnext : advance p = .ok () (p.looking .endOfInput) :=
    advance_of_token (by rw [h.front_of_end hend])
  rw [settle, h.settings_eq, hrejected]
  show andThen (eat .endOfInput p) _ = _
  rw [eat_of_kind_eq (by rw [hend]; rfl), hnext, andThen_ok]

/-- Where it has to end and does not, a token is misplaced. -/
theorem settle_of_ne_end (h : p.Ready settings finish) (hrejected : settings.trailing = .rejected)
    (hend : p.lookahead ≠ .endOfInput) (value : Binary64) :
    settle value p = .error (p.misplaced .endOfInput) p := by
  rw [settle, h.settings_eq, hrejected]
  show andThen (eat .endOfInput p) _ = _
  rw [eat_of_ne_end hend]
  rfl

/-- Dealing with what follows takes a step at most. -/
theorem stepped_settle (h : p.Ready settings finish) (value : Binary64) :
    ∃ n, Stepped p n (settle value p) ∧ (ending (settle value p)).Ready settings finish := by
  rcases htrailing : settings.trailing with _ | _
  · have hpulled := pulled_settle_ignored h htrailing value
    exact ⟨0, hpulled.toStepped, hpulled.ready⟩
  by_cases hend : p.lookahead = .endOfInput
  · have hfront : p.cursor.front.reading = .token .endOfInput := by rw [h.front_of_end hend]
    rw [settle_of_end h htrailing hend]
    exact ⟨1, stepped_looking hfront value, h.looking hfront⟩
  · have hfault : Pulled settings finish p 0
        (.error (p.misplaced .endOfInput) p : EStateM.Result Fault Parser Binary64) p.depth :=
      pulled_error h rfl
    rw [settle_of_ne_end h htrailing hend]
    exact ⟨0, hfault.toStepped, h⟩

/-- If the rest is ignored, every step has used up a token. -/
theorem pulls_parse_ignored (hignored : settings.trailing = .ignored) :
    Pulls settings finish parse := by
  intro p h
  rw [parse_eq]
  obtain ⟨_, hexpr⟩ := pulls_expr settings finish p h
  refine hexpr.andThen fun value q hq hdepth => ?_
  rw [← hdepth]
  exact ⟨0, pulled_settle_ignored hq hignored value⟩

/-- **A whole text takes steps.** -/
theorem stepped_parse (h : p.Ready settings finish) : ∃ n, Stepped p n (parse p) := by
  rw [parse_eq]
  obtain ⟨n, hexpr⟩ := pulls_expr settings finish p h
  rcases hresult : expr p with ⟨value, q⟩ | ⟨fault, q⟩
  · rw [hresult] at hexpr
    obtain ⟨m, hsettle, _⟩ := stepped_settle hexpr.ready value
    exact ⟨n + m, hexpr.toStepped.andThen_ok hsettle⟩
  · rw [hresult] at hexpr
    exact ⟨n, hexpr.toStepped.andThen_error⟩

end Parser

/-! ## Evaluations -/

/-- A parser that has not looked at anything yet.  What its lookahead is plays no part, as long as it
    is not the end. -/
def Parser.fresh (settings : Settings) (cursor : Cursor) : Parser where
  settings
  cursor
  lookahead := .leftParen
  position := 0
  depth := 0
  events := #[]

/-- What comes out of an action, without the state. -/
def outcomeOf : EStateM.Result Fault Parser α → Except Fault α
  | .ok a _ => .ok a
  | .error fault _ => .error fault

variable {settings : Settings} {text : String}

/-- The first token is read as every other is. -/
theorem Parser.start_eq (settings : Settings) (cursor : Cursor) :
    start settings cursor =
      match advance (fresh settings cursor) with
      | .ok _ p => .ok p
      | .error fault _ => .error fault := by
  have hcursor : (fresh settings cursor).cursor = cursor := rfl
  rw [start, advance, hcursor]
  rcases cursor.next with ⟨fault | token, behind⟩
  · rfl
  · rfl

/-- A parser in front of a text is ready. -/
theorem Parser.ready_fresh (settings : Settings) (text : String) :
    (fresh settings (Cursor.ofText text)).Ready settings (Text.byteLength text.toList) :=
  ⟨rfl, rfl, fun h => (by cases h), @Lexeme.reading_scan_ne_end 0 text.toList⟩

/-- It has not come to an end yet. -/
theorem Parser.lookahead_fresh_ne (settings : Settings) (cursor : Cursor) :
    (fresh settings cursor).lookahead ≠ .endOfInput := by
  rw [fresh]
  exact Token.noConfusion

/-- Its first step takes it to the first token. -/
theorem Parser.pulled_fresh (settings : Settings) (text : String) :
    Pulled settings (Text.byteLength text.toList) (fresh settings (Cursor.ofText text)) 1
      (advance (fresh settings (Cursor.ofText text))) 0 :=
  pulled_advance (ready_fresh settings text) (lookahead_fresh_ne _ _)

namespace Evaluation

/-- How many steps an evaluation has pulled: one for every token that it has read, and one for the
    stray that it has broken off at, if it has. -/
def pulls (evaluation : Evaluation) : Nat :=
  evaluation.reads.length +
    match evaluation.outcome with
    | .ok _ => 0
    | .error fault => fault.cause.strays

/-- The cursor that the evaluation of a text leaves behind. -/
def cursor (settings : Settings) (text : String) : Cursor :=
  match Parser.start settings (Cursor.ofText text) with
  | .error _ => (Cursor.ofText text).next.2
  | .ok p => (ending (Parser.parse p)).cursor

/-- The evaluation of a text as one action. -/
def course (settings : Settings) (text : String) : EStateM.Result Fault Parser Binary64 :=
  andThen (Parser.advance (Parser.fresh settings (Cursor.ofText text))) fun _ p => Parser.parse p

/-- Once there is a parser, the course is what the parser does. -/
theorem course_of_start {p : Parser} (h : Parser.start settings (Cursor.ofText text) = .ok p) :
    course settings text = Parser.parse p := by
  rw [Parser.start_eq] at h
  rw [course]
  rcases hadvance : Parser.advance (Parser.fresh settings (Cursor.ofText text)) with
    ⟨_, q⟩ | ⟨fault, q⟩
  · rw [hadvance] at h
    cases h
    rfl
  · rw [hadvance] at h
    cases h

/-- An evaluation is what comes of its course. -/
theorem run_eq_course (settings : Settings) (text : String) :
    (run settings text).outcome = outcomeOf (course settings text) ∧
      (run settings text).reads = (ending (course settings text)).reads ∧
      (run settings text).pulls = Calculator.pulls (course settings text) ∧
      cursor settings text = (ending (course settings text)).cursor := by
  have hstart := Parser.start_eq settings (Cursor.ofText text)
  rcases hfront : (Cursor.ofText text).front.reading with token | x
  · rw [Parser.advance_of_token hfront] at hstart
    have hrun := run_of_start hstart
    rw [course, cursor, Parser.advance_of_token hfront, andThen_ok, hstart]
    rcases hparse : Parser.parse _ with ⟨value, q⟩ | ⟨fault, q⟩
    · rw [hparse] at hrun
      rw [pulls, hrun.1, hrun.2]
      simp only [hparse, outcomeOf, ending, Calculator.pulls, and_self, Nat.add_zero]
    · rw [hparse] at hrun
      rw [pulls, hrun.1, hrun.2]
      simp only [hparse, outcomeOf, ending, Calculator.pulls, and_self]
  · rw [Parser.advance_of_stray hfront] at hstart
    have hrun : run settings text =
        ⟨.error ⟨.strayCharacter x, (Cursor.ofText text).front.position⟩, [.started text]⟩ := by
      rw [run, hstart]
      rfl
    rw [course, cursor, Parser.advance_of_stray hfront, hstart, hrun]
    exact ⟨rfl, rfl, rfl, rfl⟩

/-- The course of an evaluation takes steps. -/
theorem stepped_course (settings : Settings) (text : String) :
    ∃ n, Parser.Stepped (Parser.fresh settings (Cursor.ofText text)) n (course settings text) := by
  have hfirst := Parser.pulled_fresh settings text
  rcases hresult : Parser.advance (Parser.fresh settings (Cursor.ofText text)) with
    ⟨_, p⟩ | ⟨fault, p⟩
  · rw [hresult] at hfirst
    obtain ⟨n, hparse⟩ := Parser.stepped_parse hfirst.ready
    rw [course, hresult]
    exact ⟨1 + n, hfirst.toStepped.andThen_ok hparse⟩
  · rw [hresult] at hfirst
    rw [course, hresult]
    exact ⟨1, hfirst.toStepped.andThen_error⟩

/-- If the rest is ignored, every step of the course has used up a token. -/
theorem pulled_course_ignored (hignored : settings.trailing = .ignored) (text : String) :
    ∃ n, Parser.Pulled settings (Text.byteLength text.toList)
      (Parser.fresh settings (Cursor.ofText text)) n (course settings text) 0 := by
  refine (Parser.pulled_fresh settings text).andThen fun _ p hp hdepth => ?_
  rw [← hdepth]
  exact Parser.pulls_parse_ignored hignored p hp

/-- **What an evaluation pulls.**  The cursor has taken as many steps as are counted, and the tokens
    among them have been read. -/
theorem cursor_eq_skip (settings : Settings) (text : String) :
    cursor settings text = (Cursor.ofText text).skip (run settings text).pulls ∧
      (run settings text).reads =
        ((Cursor.ofText text).steps (run settings text).pulls).filterMap Placed.read? := by
  obtain ⟨n, hstepped⟩ := stepped_course settings text
  obtain ⟨_, hreads, hpulls, hcursor⟩ := run_eq_course settings text
  have hn : (run settings text).pulls = n := by
    rw [hpulls, hstepped.pulls_eq]
    exact Nat.zero_add n
  rw [hn, hcursor, hreads]
  exact ⟨hstepped.cursor_eq, hstepped.reads_eq⟩

end Evaluation

end Calculator
