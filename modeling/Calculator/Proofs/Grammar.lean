/-
  The grammar as trees.

  Problem: say what the expressions of the language are and what they mean, without a parser.

      expr   := term (("+" | "-") term)*
      term   := factor (("*" | "/") factor)*
      factor := integer | "(" expr ")"

  1. **Derivations** — `Phrase`: for each nonterminal the type of its derivation trees.  An `expr`
     and a `term` are chains of the two levels: an operand, and rounds of an operator of that level
     and another operand.  The operands of a chain of products are factors, those of a chain of
     sums are terms.  The leaves keep the places at which their tokens stand.

  2. **Yield** — `placed`: the tokens of a phrase in the order of the text, each at its place.  A
     sentence is what some expression yields, with parentheses nested no deeper than a limit.

  3. **Meaning** — `eval`: literals are checked, a chain is worked off from the left, and the right
     operand of a round is complete before its operator is applied.  Rounds alone have no value:
     they say what becomes of the value that the chain has come to.

  4. **The crux (`Phrase.eq_of_placed_append`)** — a text has one derivation at most.  Two phrases
     of one nonterminal that begin the same tokens are the same phrase, as long as neither is
     followed by an operator that could go on with it (`Stops`).  A factor needs no such care; a
     chain is cut off at the first operator behind it that binds more loosely.
-/
import Calculator.Lexeme
import Calculator.Operation

namespace Calculator

/-! ## Readings at their places -/

/-- What a piece of the text is, and where it begins. -/
structure Placed where
  reading : Reading
  position : Nat
  deriving DecidableEq

/-- A piece of the text without its end. -/
def Lexeme.placed (piece : Lexeme) : Placed := ⟨piece.reading, piece.start⟩

/-- What stands in a text, from its first piece to its last. -/
def Placed.ofText (text : String) : List Placed := (Lexeme.scan 0 text.toList).map Lexeme.placed

/-- The token that a reading is, unless it is a stray. -/
def Reading.token? : Reading → Option Token
  | .token it => some it
  | .stray _ => none

/-! ## Derivations -/

/-- The nonterminals: what a chain of some level is made of, the chain, and its rounds. -/
inductive Nonterminal where
  /-- A factor, if the chain is one of products, and a term, if it is one of sums. -/
  | operand (level : Level)
  /-- A term, if the level is that of products, and an expression, if it is that of sums. -/
  | chain (level : Level)
  /-- The operators of a chain, each with its right operand. -/
  | rounds (level : Level)

/-- Derivation trees. -/
inductive Phrase : Nonterminal → Type where
  | integer (literal : Literal) (position : Nat) : Phrase (.operand .product)
  | group (opening : Nat) (inner : Phrase (.chain .sum)) (closing : Nat) :
      Phrase (.operand .product)
  | term (inner : Phrase (.chain .product)) : Phrase (.operand .sum)
  | chain {level : Level} (first : Phrase (.operand level)) (more : Phrase (.rounds level)) :
      Phrase (.chain level)
  | done {level : Level} : Phrase (.rounds level)
  | round {level : Level} (op : Operator) (position : Nat) (h : op.level = level)
      (right : Phrase (.operand level)) (more : Phrase (.rounds level)) : Phrase (.rounds level)

/-- Expressions are chains of sums. -/
abbrev Expression := Phrase (.chain .sum)

/-- What a phrase means: a value, and for rounds the value that the chain comes to in the end, given
    the one it has come to so far. -/
abbrev Nonterminal.Meaning : Nonterminal → Type
  | .operand _ | .chain _ => Except Fault Binary64
  | .rounds _ => Binary64 → Except Fault Binary64

namespace Phrase

/-- The tokens of a phrase at their places. -/
def placed : {k : Nonterminal} → Phrase k → List Placed
  | _, .integer literal position => [⟨.token (.integer literal), position⟩]
  | _, .group opening inner closing =>
    ⟨.token .leftParen, opening⟩ :: (inner.placed ++ [⟨.token .rightParen, closing⟩])
  | _, .term inner => inner.placed
  | _, .chain first more => first.placed ++ more.placed
  | _, .done => []
  | _, .round op position _ right more =>
    ⟨.token (.operator op), position⟩ :: (right.placed ++ more.placed)

/-- The tokens of a phrase. -/
def tokens {k : Nonterminal} (e : Phrase k) : List Token :=
  e.placed.filterMap fun here => here.reading.token?

/-- How deep the parentheses of a phrase are nested. -/
def nesting : {k : Nonterminal} → Phrase k → Nat
  | _, .integer _ _ => 0
  | _, .group _ inner _ => inner.nesting + 1
  | _, .term inner => inner.nesting
  | _, .chain first more => max first.nesting more.nesting
  | _, .done => 0
  | _, .round _ _ _ right more => max right.nesting more.nesting

/-- The value of a phrase, or the first fault met on the way to it. -/
def eval : {k : Nonterminal} → Phrase k → k.Meaning
  | _, .integer literal position => literal.toBinary64.checked position
  | _, .group _ inner _ => inner.eval
  | _, .term inner => inner.eval
  | _, .chain first more => do
    let left : Binary64 ← first.eval
    more.eval left
  | _, .done => fun left => .ok left
  | _, .round op position _ right more => fun left => do
    let value : Binary64 ← right.eval
    let result ← op.apply left value position
    more.eval result

/-- A phrase is made of tokens, without strays between them. -/
theorem map_reading_placed {k : Nonterminal} (e : Phrase k) :
    e.placed.map Placed.reading = e.tokens.map Reading.token := by
  induction e with
  | integer literal position => rfl
  | group opening inner closing ih => simpa [tokens, placed, Reading.token?] using ih
  | term inner ih => exact ih
  | chain first more ih₁ ih₂ =>
    simp only [tokens, placed, List.map_append, List.filterMap_append] at ih₁ ih₂ ⊢
    rw [ih₁, ih₂]
  | done => rfl
  | round op position h right more ih₁ ih₂ =>
    simp only [tokens, placed, List.map_append, List.filterMap_append, List.map_cons,
      List.filterMap_cons, Reading.token?] at ih₁ ih₂ ⊢
    rw [ih₁, ih₂]

end Phrase

/-- The tokens of an expression whose parentheses are nested no deeper than the limit. -/
def Sentence (limit : Nat) (tokens : List Token) : Prop :=
  ∃ e : Expression, e.nesting ≤ limit ∧ e.tokens = tokens

/-! ## Where a phrase stops -/

/-- The operators behind a phrase that would be part of it: none behind a factor, a product behind a
    term, and any behind an expression. -/
def Nonterminal.Continues : Nonterminal → Operator → Prop
  | .operand .product, _ => False
  | .operand .sum, op | .chain .product, op | .rounds .product, op => op.level = .product
  | .chain .sum, _ | .rounds .sum, _ => True

/-- What follows does not go on with a phrase of the given sort. -/
def Stops (k : Nonterminal) (rest : List Placed) : Prop :=
  ∀ op position behind, rest = ⟨.token (.operator op), position⟩ :: behind → ¬ k.Continues op

/-- An operator of the level of a chain goes on with the rounds of that chain, and with no operand
    of it. -/
theorem Nonterminal.continues_of_level {level : Level} {op : Operator} (h : op.level = level) :
    (rounds level).Continues op ∧ ¬ (operand level).Continues op := by
  cases level with
  | product => exact ⟨h, id⟩
  | sum =>
    refine ⟨trivial, fun hproduct => ?_⟩
    have hlevel : op.level = .product := hproduct
    rw [hlevel] at h
    cases h

/-- Whatever goes on with an operand goes on with its chain. -/
theorem Nonterminal.continues_rounds {level : Level} {op : Operator}
    (h : (operand level).Continues op) : (rounds level).Continues op := by
  cases level with
  | product => exact h.elim
  | sum => trivial

/-- An operator either goes on with the operand in front of it or with nothing but the chain. -/
theorem Nonterminal.continues_rounds_iff {level : Level} {op : Operator} :
    (rounds level).Continues op ↔ (operand level).Continues op ∨ op.level = level := by
  cases level with
  | product => exact ⟨.inr, fun h => h.elim False.elim id⟩
  | sum =>
    refine ⟨fun _ => ?_, fun _ => trivial⟩
    rcases hlevel : op.level with _ | _
    · exact .inr rfl
    · exact .inl hlevel

theorem stops_nil (k : Nonterminal) : Stops k [] := by
  intro op position behind h
  cases h

/-- A token that is no operator stops every phrase. -/
theorem stops_of_not_operator {k : Nonterminal} {token : Token} {position : Nat}
    {behind : List Placed} (h : ∀ op, token ≠ .operator op) :
    Stops k (⟨.token token, position⟩ :: behind) := by
  intro op position' behind' heq
  cases heq
  exact absurd rfl (h op)

/-- Where a chain stops, its last operand has stopped. -/
theorem Stops.operand {level : Level} {rest : List Placed} (h : Stops (.rounds level) rest) :
    Stops (.operand level) rest :=
  fun op position behind heq hcontinues =>
    h op position behind heq (Nonterminal.continues_rounds hcontinues)

/-- An operand stops where the next round of its chain begins, or where the chain ends. -/
theorem stops_operand_append {level : Level} (more : Phrase (.rounds level)) {rest : List Placed}
    (h : Stops (.rounds level) rest) : Stops (.operand level) (more.placed ++ rest) := by
  cases more with
  | done => exact h.operand
  | round op position hlevel right more =>
    intro op' position' behind heq
    cases heq
    exact (Nonterminal.continues_of_level hlevel).2

/-! ## Unambiguity -/

/-- **One derivation at most.**  Phrases of one nonterminal that begin the same tokens are the same,
    and so is what follows them, if neither is followed by an operator that goes on with it. -/
theorem Phrase.eq_of_placed_append {k : Nonterminal} (e : Phrase k) :
    ∀ (e' : Phrase k) (rest rest' : List Placed), Stops k rest → Stops k rest' →
      e.placed ++ rest = e'.placed ++ rest' → e = e' ∧ rest = rest' := by
  induction e with
  | integer literal position =>
    intro e' rest rest' _ _ h
    cases e' with
    | integer literal' position' =>
      simp only [placed, List.cons_append, List.nil_append, List.cons.injEq, Placed.mk.injEq,
        Reading.token.injEq, Token.integer.injEq] at h
      obtain ⟨⟨rfl, rfl⟩, rfl⟩ := h
      exact ⟨rfl, rfl⟩
    | group opening inner closing => simp [placed] at h
  | group opening inner closing ih =>
    intro e' rest rest' _ _ h
    cases e' with
    | integer literal position => simp [placed] at h
    | group opening' inner' closing' =>
      simp only [placed, List.cons_append, List.append_assoc, List.nil_append, List.cons.injEq,
        Placed.mk.injEq, true_and] at h
      obtain ⟨rfl, hinner⟩ := h
      -- the closing parenthesis stops the expression inside
      obtain ⟨rfl, hrest⟩ := ih inner' _ _ (stops_of_not_operator (by simp))
        (stops_of_not_operator (by simp)) hinner
      cases hrest
      exact ⟨rfl, rfl⟩
  | term inner ih =>
    intro e' rest rest' hstop hstop' h
    cases e' with
    | term inner' =>
      obtain ⟨rfl, hrest⟩ := ih inner' rest rest' hstop hstop' h
      exact ⟨rfl, hrest⟩
  | @chain level first more ih₁ ih₂ =>
    intro e' rest rest' hstop hstop' h
    cases e' with
    | chain first' more' =>
      have hrounds : Stops (.rounds level) rest := by cases level <;> exact hstop
      have hrounds' : Stops (.rounds level) rest' := by cases level <;> exact hstop'
      simp only [placed, List.append_assoc] at h
      obtain ⟨rfl, hmore⟩ := ih₁ first' _ _ (stops_operand_append more hrounds)
        (stops_operand_append more' hrounds') h
      obtain ⟨rfl, hrest⟩ := ih₂ more' rest rest' hrounds hrounds' hmore
      exact ⟨rfl, hrest⟩
  | done =>
    intro e' rest rest' hstop _ h
    cases e' with
    | done => exact ⟨rfl, h⟩
    | round op position hlevel right more =>
      exact absurd (Nonterminal.continues_of_level hlevel).1 (hstop op position _ h)
  | round op position hlevel right more ih₁ ih₂ =>
    intro e' rest rest' hstop hstop' h
    cases e' with
    | done =>
      exact absurd (Nonterminal.continues_of_level hlevel).1 (hstop' op position _ h.symm)
    | round op' position' hlevel' right' more' =>
      simp only [placed, List.cons_append, List.append_assoc, List.cons.injEq, Placed.mk.injEq,
        Reading.token.injEq, Token.operator.injEq] at h
      obtain ⟨⟨rfl, rfl⟩, hright⟩ := h
      obtain ⟨rfl, hmore⟩ := ih₁ right' _ _ (stops_operand_append more hstop)
        (stops_operand_append more' hstop') hright
      obtain ⟨rfl, hrest⟩ := ih₂ more' rest rest' hstop hstop' hmore
      exact ⟨rfl, hrest⟩

/-- The tokens of a phrase, at their places, determine it. -/
theorem Phrase.placed_injective {k : Nonterminal} {e e' : Phrase k} (h : e.placed = e'.placed) :
    e = e' :=
  (e.eq_of_placed_append e' [] [] (stops_nil k) (stops_nil k) (by rw [h])).1

end Calculator
