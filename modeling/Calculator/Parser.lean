/-
  The grammar, evaluated while it is parsed.

      expr   := term (("+" | "-") term)*
      term   := factor (("*" | "/") factor)*
      factor := integer | "(" expr ")"

  Problem: find the value of an expression in one pass, with one token of lookahead and without a
  tree, and report the fault that comes first.

  1. **State** — `Parser`: the lookahead and its place, the cursor behind it, how many parentheses
     are open, and the record of what has happened.  A rule of the grammar is an action on this
     state (`Rule`) that gives a value or a fault.  A fault does not undo the state: what was read
     stays read, and further rules can be asked of the parser that is left.

  2. **Chains** — `term` and `expr` are the same rule for two levels of precedence: an operand, and
     then rounds of an operator and an operand, each applied to what the chain has come to so far.
     That is what grouping from the left means.  Every round reads a token, so the tokens still to
     come bound the rounds (`remaining`), and the bound is never what ends a chain.

  3. **Depth** — a factor recurses only behind an opening parenthesis, and only while fewer than
     `maxDepth` of them are open.  So `factorWithin` recurses on how many more may be opened: with
     none left an opening parenthesis is a fault, and with `budget + 1` left the expression inside
     has `budget`.

  4. **Order of faults** — a token is read before the rule that consumed its predecessor returns;
     an operator is applied as soon as its right operand is complete.  Which of two faults is met
     first is decided by this order and by nothing else.
-/
import Calculator.Cursor
import Calculator.Event
import Calculator.Operation
import Calculator.Settings

namespace Calculator

/-- The state of a parser between two rules. -/
structure Parser where
  settings : Settings
  /-- What lies behind the lookahead. -/
  cursor : Cursor
  /-- The first token that no rule has consumed. -/
  lookahead : Token
  /-- The place of the lookahead. -/
  position : Nat
  /-- How many parentheses are open. -/
  depth : Nat
  /-- What has happened so far. -/
  events : Array Event
  deriving DecidableEq

/-- An action of the parser, which gives a value or a fault and in either case a state. -/
abbrev Rule := EStateM Fault Parser

namespace Parser

/-! ## Reading tokens -/

/-- A parser whose lookahead is the next token of the cursor, if there is one. -/
def start (settings : Settings) (cursor : Cursor) : Except Fault Parser :=
  match cursor.next with
  | (.ok token, behind) =>
    .ok {
      settings
      cursor := behind
      lookahead := token
      position := behind.position
      depth := 0
      events := #[.read token behind.position] }
  | (.error fault, _) => .error fault

/-- Adds an event to the record. -/
def record (event : Event) : Rule Unit :=
  modify fun p => { p with events := p.events.push event }

/-- Replaces the lookahead by the next token.  When there is a fault in its place, the lookahead
    stays, although the cursor has moved on. -/
def advance : Rule Unit := fun p =>
  match p.cursor.next with
  | (.ok token, behind) =>
    .ok () {
      p with
      cursor := behind
      lookahead := token
      position := behind.position
      events := p.events.push (.read token behind.position) }
  | (.error fault, behind) => .error fault { p with cursor := behind }

/-- The fault of a lookahead that is not of the kind the grammar wants. -/
def misplaced (p : Parser) (expected : TokenKind) : Fault :=
  ⟨.unexpected expected p.lookahead.kind, p.position⟩

/-- Consumes the lookahead if it is of the given kind. -/
def eat (expected : TokenKind) : Rule Unit := do
  let p ← get
  if p.lookahead.kind = expected then advance else throw (p.misplaced expected)

/-- Nothing is consumed but a token of the kind that is asked for. -/
theorem eat_of_kind_eq {p : Parser} {kind : TokenKind} (h : p.lookahead.kind = kind) :
    eat kind p = advance p := by
  show (if p.lookahead.kind = kind then advance else throw (p.misplaced kind)) p = _
  rw [if_pos h]

/-- A lookahead of another kind is a fault, and the state stays as it is. -/
theorem eat_of_kind_ne {p : Parser} {kind : TokenKind} (h : p.lookahead.kind ≠ kind) :
    eat kind p = .error (p.misplaced kind) p := by
  show (if p.lookahead.kind = kind then advance else throw (p.misplaced kind)) p = _
  rw [if_neg h]
  rfl

/-- Where the input goes on, the end is not consumed. -/
theorem eat_of_ne_end {p : Parser} (h : p.lookahead ≠ .endOfInput) :
    eat .endOfInput p = .error (p.misplaced .endOfInput) p :=
  eat_of_kind_ne (by rw [ne_eq, Token.kind_eq_endOfInput]; exact h)

/-! ## Chains of operators -/

/-- How many tokens a chain may still consume, at most: the lookahead, unless the input ends there,
    and what lies behind it. -/
def remaining (p : Parser) : Nat :=
  p.cursor.left + (if p.lookahead = .endOfInput then 0 else 1)

/-- The operator of the given level that the lookahead writes, if it writes one. -/
def operatorOf (level : Level) (p : Parser) : Option Operator :=
  p.lookahead.kind.operator?.filter fun op => op.level = level

/-- Goes on with a chain that has come to `left`, for at most so many rounds. -/
def rounds (level : Level) (operand : Rule Binary64) : Nat → Binary64 → Rule Binary64
  | 0, left => pure left
  | n + 1, left => do
    match operatorOf level (← get) with
    | none => pure left
    | some op =>
      let position := (← get).position
      eat (.operator op)
      let right ← operand
      record (.applied op left right position)
      let value ← ofExcept (op.apply left right position)
      rounds level operand n value

/-- A chain of one level: an operand, and rounds of an operator and an operand. -/
def chain (level : Level) (operand : Rule Binary64) : Rule Binary64 := do
  let first ← operand
  rounds level operand (← get).remaining first

/-- A chain ends where the lookahead is no operator of its level, whatever the bound. -/
theorem rounds_of_operatorOf_eq_none {level : Level} {operand : Rule Binary64} {n : Nat}
    {left : Binary64} {p : Parser} (h : operatorOf level p = none) :
    rounds level operand n left p = .ok left p := by
  cases n with
  | zero => rfl
  | succ n =>
    show (match operatorOf level p with | none => pure left | some _ => _ : Rule Binary64) p = _
    rw [h]
    rfl

/-- At the end of the input no tokens remain, and no operator is there to go on with. -/
theorem operatorOf_eq_none_of_remaining {level : Level} {p : Parser} (h : p.remaining = 0) :
    operatorOf level p = none := by
  have hend : p.lookahead = .endOfInput := by
    by_cases he : p.lookahead = .endOfInput
    · exact he
    · simp [remaining, he] at h
  simp [operatorOf, hend, Token.kind, TokenKind.operator?]

/-! ## Factors -/

/-- A literal, which has to be finite. -/
def integer (literal : Literal) : Rule Binary64 := do
  let position := (← get).position
  if let .rounded value := literal then record (.rounded value position)
  let value ← ofExcept (literal.toBinary64.checked position)
  eat .integer
  pure value

/-- An expression in parentheses.  The depth counts the parenthesis while the expression is parsed,
    and the closing one is looked for after that. -/
def group (inner : Rule Binary64) : Rule Binary64 := do
  eat .leftParen
  modify fun p => { p with depth := p.depth + 1 }
  let value ← inner
  modify fun p => { p with depth := p.depth - 1 }
  eat .rightParen
  pure value

/-- Refuses an opening parenthesis. -/
def refuse : Rule Binary64 := do
  let p ← get
  throw ⟨.nestedTooDeep p.settings.maxDepth, p.position⟩

/-- A factor, with a given rule for what begins with an opening parenthesis. -/
def factorBy (parenthesized : Rule Binary64) : Rule Binary64 := do
  let p ← get
  match p.lookahead with
  | .leftParen => parenthesized
  | .integer literal => integer literal
  | .operator _ | .rightParen | .endOfInput => throw (p.misplaced .integer)

/-- A term, with a given rule for its factors. -/
def termBy (factor : Rule Binary64) : Rule Binary64 := chain .product factor

/-- An expression, with a given rule for its factors. -/
def exprBy (factor : Rule Binary64) : Rule Binary64 := chain .sum (termBy factor)

/-- A factor inside which at most so many parentheses are opened at once. -/
def factorWithin : Nat → Rule Binary64
  | 0 => fun p => factorBy refuse p
  | budget + 1 => fun p => factorBy (group (exprBy (factorWithin budget))) p

/-- What begins with an opening parenthesis is left to the rule given for it. -/
theorem factorBy_of_leftParen {parenthesized : Rule Binary64} {p : Parser}
    (h : p.lookahead = .leftParen) : factorBy parenthesized p = parenthesized p := by
  show (match p.lookahead with
    | .leftParen => parenthesized
    | .integer literal => integer literal
    | .operator _ | .rightParen | .endOfInput => throw (p.misplaced .integer)) p = _
  rw [h]

/-- A literal is a factor by itself. -/
theorem factorBy_of_integer {parenthesized : Rule Binary64} {p : Parser} {literal : Literal}
    (h : p.lookahead = .integer literal) : factorBy parenthesized p = integer literal p := by
  show (match p.lookahead with
    | .leftParen => parenthesized
    | .integer literal => integer literal
    | .operator _ | .rightParen | .endOfInput => throw (p.misplaced .integer)) p = _
  rw [h]

/-- No factor begins with anything else. -/
theorem factorBy_of_ne {parenthesized : Rule Binary64} {p : Parser}
    (hparen : p.lookahead ≠ .leftParen) (hinteger : ∀ literal, p.lookahead ≠ .integer literal) :
    factorBy parenthesized p = .error (p.misplaced .integer) p := by
  show (match p.lookahead with
    | .leftParen => parenthesized
    | .integer literal => integer literal
    | .operator _ | .rightParen | .endOfInput => throw (p.misplaced .integer)) p = _
  rcases h : p.lookahead with literal | op | _ | _ | _
  case integer => exact absurd h (hinteger literal)
  case leftParen => exact absurd h hparen
  all_goals rfl

/-! ## The rules -/

/-- How many more parentheses may be opened. -/
def budget (p : Parser) : Nat := p.settings.maxDepth - p.depth

/-- Parses and evaluates a factor. -/
def factor : Rule Binary64 := fun p => factorWithin p.budget p

/-- Parses and evaluates a chain of products. -/
def term : Rule Binary64 := fun p => termBy (factorWithin p.budget) p

/-- Parses and evaluates a chain of sums, and leaves the token behind it as the lookahead. -/
def expr : Rule Binary64 := fun p => exprBy (factorWithin p.budget) p

/-- Parses and evaluates an expression, and deals with what is left over behind it. -/
def parse : Rule Binary64 := do
  let value ← expr
  let p ← get
  match p.settings.trailing with
  | .ignored =>
    if p.lookahead ≠ .endOfInput then record (.ignored p.position)
  | .rejected => eat .endOfInput
  pure value

end Parser

end Calculator
