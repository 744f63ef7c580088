/-
  The outline of a text: parsing without computing.

  Problem: run the grammar over the pieces of a text with no number in sight, and write down what
  would have to be computed.

  1. **Result** — `Outline`: the code written so far, the tokens pulled so far, and how it ends: in
     the pieces from the lookahead on, or in a fault of the text or its tokens.  Code that was
     written before a fault is kept, because it may hold a fault that comes first.

  2. **Rules** — the pieces from the lookahead on are all that a rule is given.  `pull` makes the
     next piece the lookahead, which a stray cannot be.  A literal writes its instruction before
     the piece behind it is pulled, an operator when its right operand is complete.

  3. **Rounds** — as in `Parser.rounds`, the number of pieces bounds the rounds of a chain, since
     each of them uses up a piece.  The bound is never what ends a chain (see `Recognition`).

  4. **Yields** — `Yields code a` says that an outline ends well and what it has written.  It takes
     a sequence of steps apart into its members (`yields_bind`), and so does `Fails` for one that
     ends in a fault (`fails_bind`).
-/
import Calculator.Cursor
import Calculator.Proofs.Postfix
import Calculator.Settings

namespace Calculator

/-- What is known when the tokens have been read and nothing has been computed. -/
structure Outline (α : Type) where
  code : List Instruction
  /-- The tokens that became the lookahead, with their places. -/
  pulled : List (Token × Nat)
  ending : Except Fault α

namespace Outline

variable {α β : Type}

/-! ## Steps one after the other -/

/-- What comes after a fault is not reached; all else is written one behind the other. -/
def andThen (o : Outline α) (next : α → Outline β) : Outline β :=
  match o.ending with
  | .ok a => ⟨o.code ++ (next a).code, o.pulled ++ (next a).pulled, (next a).ending⟩
  | .error fault => ⟨o.code, o.pulled, .error fault⟩

instance : Monad Outline where
  pure a := ⟨[], [], .ok a⟩
  bind := andThen

/-- Writes an instruction. -/
def emit (instruction : Instruction) : Outline Unit := ⟨[instruction], [], .ok ()⟩

/-- Ends in a fault. -/
def fail (fault : Fault) : Outline α := ⟨[], [], .error fault⟩

/-- The outline ends well, in `a`, having written `code`. -/
def Yields (o : Outline α) (code : List Instruction) (a : α) : Prop :=
  o.code = code ∧ o.ending = .ok a

/-- The outline ends in a fault. -/
def Fails (o : Outline α) (fault : Fault) : Prop := o.ending = .error fault

theorem bind_of_ok {o : Outline α} {next : α → Outline β} {a : α} (h : o.ending = .ok a) :
    o >>= next = ⟨o.code ++ (next a).code, o.pulled ++ (next a).pulled, (next a).ending⟩ := by
  show andThen o next = _
  simp only [andThen, h]

theorem bind_of_error {o : Outline α} {next : α → Outline β} {fault : Fault}
    (h : o.ending = .error fault) : o >>= next = ⟨o.code, o.pulled, .error fault⟩ := by
  show andThen o next = _
  simp only [andThen, h]

@[simp] theorem yields_pure {a b : α} {code : List Instruction} :
    (pure a : Outline α).Yields code b ↔ code = [] ∧ b = a := by
  show ([] = code ∧ (Except.ok a : Except Fault α) = .ok b) ↔ _
  constructor
  · rintro ⟨rfl, h⟩
    cases h
    exact ⟨rfl, rfl⟩
  · rintro ⟨rfl, rfl⟩
    exact ⟨rfl, rfl⟩

@[simp] theorem yields_emit {instruction : Instruction} {code : List Instruction} {u : Unit} :
    (emit instruction).Yields code u ↔ code = [instruction] :=
  ⟨fun h => h.1.symm, fun h => ⟨h.symm, rfl⟩⟩

@[simp] theorem not_yields_fail {fault : Fault} {code : List Instruction} {a : α} :
    ¬ (fail fault : Outline α).Yields code a := by
  rintro ⟨_, h⟩
  cases h

/-- What a sequence writes is what its members write. -/
theorem yields_bind {o : Outline α} {next : α → Outline β} {code : List Instruction} {b : β} :
    (o >>= next).Yields code b ↔
      ∃ a before behind, o.Yields before a ∧ (next a).Yields behind b ∧
        code = before ++ behind := by
  constructor
  · rintro ⟨hcode, hending⟩
    rcases ho : o.ending with fault | a
    · rw [bind_of_error ho] at hending
      cases hending
    · rw [bind_of_ok ho] at hcode hending
      exact ⟨a, o.code, (next a).code, ⟨rfl, ho⟩, ⟨rfl, hending⟩, hcode.symm⟩
  · rintro ⟨a, before, behind, ⟨rfl, ho⟩, ⟨rfl, hending⟩, rfl⟩
    rw [bind_of_ok ho]
    exact ⟨rfl, hending⟩

@[simp] theorem fails_fail {fault fault' : Fault} :
    (fail fault : Outline α).Fails fault' ↔ fault' = fault := by
  constructor
  · intro h
    cases h
    rfl
  · rintro rfl
    rfl

@[simp] theorem not_fails_pure {a : α} {fault : Fault} : ¬ (pure a : Outline α).Fails fault := by
  intro h
  cases h

@[simp] theorem not_fails_emit {instruction : Instruction} {fault : Fault} :
    ¬ (emit instruction).Fails fault := by
  intro h
  cases h

/-- A sequence fails in its first member, or in what follows after that has ended well. -/
theorem fails_bind {o : Outline α} {next : α → Outline β} {fault : Fault} :
    (o >>= next).Fails fault ↔
      o.Fails fault ∨ ∃ a code, o.Yields code a ∧ (next a).Fails fault := by
  rcases ho : o.ending with fault' | a
  · have hfails : (o >>= next).Fails fault ↔ o.Fails fault := by
      simp only [Fails, bind_of_error ho, ho, Except.error.injEq]
    rw [hfails]
    refine ⟨.inl, fun h => h.elim id ?_⟩
    rintro ⟨a, code, ⟨_, hok⟩, _⟩
    rw [ho] at hok
    cases hok
  · have hfails : (o >>= next).Fails fault ↔ (next a).Fails fault := by
      simp only [Fails, bind_of_ok ho]
    rw [hfails]
    refine ⟨fun h => .inr ⟨a, o.code, ⟨rfl, ho⟩, h⟩, fun h => ?_⟩
    rcases h with h | ⟨a', code, ⟨_, hok⟩, h⟩
    · rw [Fails, ho] at h
      cases h
    · rw [ho] at hok
      cases hok
      exact h

/-! ## Reading -/

/-- A rule of the grammar, from the pieces it finds to those it leaves. -/
abbrev Rule := List Placed → Outline (List Placed)

/-- The piece in front is not a stray. -/
def Legible (ahead : List Placed) : Prop :=
  ∀ c position behind, ahead ≠ ⟨.stray c, position⟩ :: behind

theorem legible_nil : Legible [] := by
  intro c position behind h
  cases h

theorem legible_token (token : Token) (position : Nat) (behind : List Placed) :
    Legible (⟨.token token, position⟩ :: behind) := by
  intro c position' behind' h
  cases h

/-- Where a phrase and what follows it begin, there is no stray. -/
theorem legible_placed_append {k : Nonterminal} (e : Phrase k) :
    ∀ {rest : List Placed}, Legible rest → Legible (e.placed ++ rest) := by
  induction e with
  | integer literal position => exact fun _ => legible_token _ _ _
  | group opening inner closing ih => exact fun _ => legible_token _ _ _
  | term inner ih => exact ih
  | chain first more ih₁ ih₂ =>
    intro rest h
    rw [Phrase.placed, List.append_assoc]
    exact ih₁ (ih₂ h)
  | done => exact id
  | round op position h right more ih₁ ih₂ => exact fun _ => legible_token _ _ _

section

variable (limit finish : Nat)

/-- Makes the first of the pieces the lookahead.  Without pieces that is the end of the input, at
    `finish`. -/
def pull : Rule
  | [] => ⟨[], [(.endOfInput, finish)], .ok []⟩
  | ⟨.token token, position⟩ :: behind =>
    ⟨[], [(token, position)], .ok (⟨.token token, position⟩ :: behind)⟩
  | ⟨.stray c, position⟩ :: _ => fail ⟨.strayCharacter c, position⟩

/-- Looking ahead writes no code. -/
theorem code_pull (finish : Nat) (ahead : List Placed) : (pull finish ahead).code = [] := by
  rw [pull.eq_def]
  split <;> rfl

/-- Looking ahead fails without having pulled anything. -/
theorem pull_of_error {finish : Nat} {ahead : List Placed} {fault : Fault}
    (h : (pull finish ahead).ending = .error fault) : pull finish ahead = fail fault := by
  rw [pull.eq_def] at h ⊢
  split at h
  · cases h
  · cases h
  · cases h
    rfl

/-- The fault of a lookahead that is not of the kind the grammar wants. -/
def misplaced (expected : TokenKind) : List Placed → Fault
  | [] => ⟨.unexpected expected .endOfInput, finish⟩
  | ⟨.token token, position⟩ :: _ => ⟨.unexpected expected token.kind, position⟩
  | ⟨.stray c, position⟩ :: _ => ⟨.strayCharacter c, position⟩

/-- A closing parenthesis. -/
def close : Rule
  | ⟨.token .rightParen, _⟩ :: behind => pull finish behind
  | ahead => fail (misplaced finish .rightParen ahead)

/-- The operator of the given level that comes next, its place, and what lies behind it. -/
def operator? (level : Level) : List Placed → Option (Operator × Nat × List Placed)
  | ⟨.token (.operator op), position⟩ :: behind =>
    if op.level = level then some (op, position, behind) else none
  | _ => none

/-- The rounds of a chain, at most so many. -/
def rounds (level : Level) (operand : Rule) : Nat → Rule
  | 0, ahead => pure ahead
  | n + 1, ahead =>
    match operator? level ahead with
    | none => pure ahead
    | some (op, position, behind) => do
      let right ← pull finish behind
      let rest ← operand right
      emit (.apply op position)
      rounds level operand n rest

/-- A chain of one level: an operand, and rounds of an operator and an operand. -/
def chain (level : Level) (operand : Rule) : Rule := fun ahead => do
  let rest ← operand ahead
  rounds finish level operand rest.length rest

/-- An expression, with a given rule for its factors. -/
def exprBy (factor : Rule) : Rule := chain finish .sum (chain finish .product factor)

/-- A factor, with a given rule for an opening parenthesis, its place and what lies behind it. -/
def factorBy (parenthesized : Nat → Rule) : Rule
  | ⟨.token .leftParen, position⟩ :: behind => parenthesized position behind
  | ⟨.token (.integer literal), position⟩ :: behind => do
    emit (.push literal position)
    pull finish behind
  | ahead => fail (misplaced finish .integer ahead)

/-- An expression in parentheses, from behind the opening one. -/
def group (inner : Rule) : Rule := fun behind => do
  let ahead ← pull finish behind
  let rest ← inner ahead
  close finish rest

/-- A factor inside which at most so many parentheses are opened at once. -/
def factorWithin : Nat → Rule
  | 0 => factorBy finish fun position _ => fail ⟨.nestedTooDeep limit, position⟩
  | budget + 1 => factorBy finish fun _ => group finish (exprBy finish (factorWithin budget))

/-- What follows a complete expression is left as it is, or has to be the end. -/
def trailing : Trailing → Rule
  | .ignored, rest => pure rest
  | .rejected, [] => pull finish []
  | .rejected, rest => fail (misplaced finish .endOfInput rest)

end

/-- The outline of a text. -/
def ofText (settings : Settings) (text : String) : Outline (List Placed) :=
  let finish := Text.byteLength text.toList
  do
    let ahead ← pull finish (Placed.ofText text)
    let rest ← exprBy finish (factorWithin settings.maxDepth finish settings.maxDepth) ahead
    trailing finish settings.trailing rest

end Outline

end Calculator
