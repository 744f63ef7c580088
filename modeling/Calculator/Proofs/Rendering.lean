/-
  Writing expressions out.

  Problem: write an expression tree as a text with as few parentheses as possible, so that nothing
  but the tree and the blanks between its tokens decides what the text is.

  1. **Trees** — `Tree`: literals of 64 bits and binary operators, with no parentheses in them.
     `Tree.eval` computes the left child, then the right one, and then applies the operator.  The
     operators are numbered from left to right, and a fault lies at the place of its operator.

  2. **Printer** — `Tree.tokens`: a child is put in parentheses only where it would not be read as
     this child otherwise (`bracketsLeft`, `bracketsRight`).  `Tree.render` writes the tokens out,
     literals in decimal, with blanks in front of each and behind the last, as many and whichever
     are given for that place.

  3. **The crux (`placed_scan_write`)** — what is written is read back, token by token, each at the
     place where it was written.  Only literals could run together, so no two of them may stand side
     by side; and none do in an expression (`apart_of_sentence`).
-/
import Calculator.Proofs.FirstFault
import Calculator.Proofs.Nearest
import Calculator.Proofs.Parentheses

namespace Calculator

open Text

/-! ## Trees -/

/-- An expression without its parentheses. -/
inductive Tree where
  | literal (value : UInt64)
  | binary (op : Operator) (left right : Tree)

namespace Tree

/-- How many operators there are. -/
def operators : Tree → Nat
  | .literal _ => 0
  | .binary _ left right => left.operators + 1 + right.operators

/-- The value of a tree, where `place n` is the place of the `n`-th operator from the left.  The
    operator of a tree comes behind those of its left child and before those of its right one. -/
def eval : Tree → (Nat → Nat) → Except Fault Binary64
  | .literal value, _ => .ok (.ofNat value.toNat)
  | .binary op left right, place => do
    let x ← left.eval place
    let y ← right.eval fun n => place (left.operators + 1 + n)
    op.apply x y (place left.operators)

/-- The level of the operator at the top, if it is not a literal that stands there. -/
def level? : Tree → Option Level
  | .literal _ => none
  | .binary op _ _ => some op.level

/-! ## Tokens -/

/-- The left child of an operator of some level is put in parentheses if it is a sum under a
    product. -/
def bracketsLeft (level : Level) (left : Tree) : Bool :=
  level = .product ∧ left.level? = some .sum

/-- The right child is put in parentheses if it has an operator of the same level at the top, or is
    a sum under a product. -/
def bracketsRight (level : Level) (right : Tree) : Bool :=
  right.level? = some level ∨ (level = .product ∧ right.level? = some .sum)

/-- The tokens, in parentheses if these are needed. -/
def bracket (needed : Bool) (tokens : List Token) : List Token :=
  if needed then .leftParen :: (tokens ++ [.rightParen]) else tokens

/-- The tokens of a tree, with as few parentheses as possible. -/
def tokens : Tree → List Token
  | .literal value => [.integer (.exact value)]
  | .binary op left right =>
    bracket (bracketsLeft op.level left) left.tokens ++
      .operator op :: bracket (bracketsRight op.level right) right.tokens

end Tree

/-! ## Texts -/

/-- How a token is written.  The end of the input is not written, and a literal that has been
    rounded is not written any more. -/
def Token.spelling : Token → List Char
  | .integer (.exact value) => digits value.toNat
  | .operator op => [op.symbol]
  | .leftParen => ['(']
  | .rightParen => [')']
  | .integer (.rounded _) | .endOfInput => []

/-- Tokens written out, with `gap n` in front of the `n`-th of them, and the next gap behind the
    last. -/
def write (gap : Nat → List Char) : List Token → List Char
  | [] => gap 0
  | token :: more => gap 0 ++ token.spelling ++ write (fun n => gap (n + 1)) more

/-- The tokens at the places where they are written, from an offset on. -/
def writtenFrom (offset : Nat) (gap : Nat → List Char) : List Token → List Placed
  | [] => []
  | token :: more =>
    let start := offset + byteLength (gap 0)
    ⟨.token token, start⟩ ::
      writtenFrom (start + byteLength token.spelling) (fun n => gap (n + 1)) more

/-- Whether a piece is an operator. -/
def Reading.isOperator : Reading → Bool
  | .token (.operator _) => true
  | .token _ | .stray _ => false

/-- The places of the operators, from left to right. -/
def operatorPlaces (written : List Placed) : List Nat :=
  (written.filter fun here => here.reading.isOperator).map Placed.position

/-- A tree as a text. -/
def Tree.render (t : Tree) (gap : Nat → List Char) : String :=
  String.ofList (write gap t.tokens)

/-- Where the `n`-th operator of a tree is written. -/
def Tree.operatorOffset (t : Tree) (gap : Nat → List Char) (n : Nat) : Nat :=
  (operatorPlaces (writtenFrom 0 gap t.tokens)).getD n 0

/-- Whether no more than so many parentheses are ever open at once. -/
def NestedWithin (limit : Nat) (tokens : List Token) : Prop :=
  ∀ front ∈ tokens.inits, openedBehind 0 (front.map Reading.token) ≤ limit

/-! ## Operators and their places -/

theorem operatorPlaces_append (front back : List Placed) :
    operatorPlaces (front ++ back) = operatorPlaces front ++ operatorPlaces back := by
  rw [operatorPlaces, List.filter_append, List.map_append]
  rfl

/-- There are as many places as there are operators. -/
theorem length_operatorPlaces (written : List Placed) :
    (operatorPlaces written).length =
      (written.map Placed.reading).countP Reading.isOperator := by
  rw [operatorPlaces, List.length_map, ← List.countP_eq_length_filter, List.countP_map]
  rfl

/-- Parentheses are no operators. -/
theorem countP_bracket (needed : Bool) (tokens : List Token) :
    ((Tree.bracket needed tokens).map Reading.token).countP Reading.isOperator =
      (tokens.map Reading.token).countP Reading.isOperator := by
  cases needed with
  | false => rfl
  | true => simp [Tree.bracket, Reading.isOperator]

/-- The operators of a tree are all among its tokens. -/
theorem countP_tokens (t : Tree) :
    (t.tokens.map Reading.token).countP Reading.isOperator = t.operators := by
  induction t with
  | literal value => rfl
  | binary op left right ih₁ ih₂ =>
    rw [Tree.tokens, List.map_append, List.countP_append, countP_bracket, ih₁, List.map_cons,
      List.countP_cons_of_pos (by rfl), countP_bracket, ih₂, Tree.operators]
    omega

/-! ## Literals -/

/-- A number of 64 bits is finite. -/
theorem Binary64.isFinite_ofNat (value : UInt64) : (ofNat value.toNat).isFinite = true :=
  (isFinite_ofNat_iff _).2 (Nat.lt_trans value.toNat_lt (by decide +kernel))

/-- A number has digits. -/
theorem Text.digits_ne_nil (n : Nat) : digits n ≠ [] := Nat.toDigits_ne_nil

/-- A number in decimal is a run of digits. -/
theorem Text.isDigit_of_mem_digits {n : Nat} {c : Char} (h : c ∈ digits n) : c.isDigit :=
  Nat.isDigit_of_mem_toDigits (by decide) (by decide) h

/-- A run of digits is read as the number that it denotes. -/
theorem Text.whole?_of_digits {run : List Char} (hrun : run ≠ []) (hdigits : ∀ c ∈ run, c.isDigit) :
    whole? run = some (ofDigits run) := by
  have hread : run? run = some (ofDigits run) := if_pos ⟨hrun, List.all_eq_true.2 hdigits⟩
  rw [whole?.eq_def]
  split
  · exact absurd (hdigits '+' List.mem_cons_self) (by decide)
  · exact hread

/-- **A literal that is written in decimal is read back.** -/
theorem Literal.ofDigits_digits (value : UInt64) :
    ofDigits (digits value.toNat) = .exact value := by
  have hwhole : whole? (digits value.toNat) = some value.toNat := by
    rw [whole?_of_digits (digits_ne_nil _) fun c hc => isDigit_of_mem_digits hc,
      Text.ofDigits_digits]
  rw [ofDigits, hwhole]
  simp only [value.toNat_lt, UInt64.size, dif_pos, UInt64.ofNatLT_toNat]

/-! ## Reading what is written -/

namespace Lexeme

/-- Blanks are skipped. -/
theorem scan_blanks {gap : List Char} (h : ∀ c ∈ gap, isBlank c) (rest : List Char) :
    ∀ offset, scan offset (gap ++ rest) = scan (offset + byteLength gap) rest := by
  induction gap with
  | nil => exact fun _ => rfl
  | cons c gap ih =>
    intro offset
    have hgap : ∀ c ∈ gap, isBlank c := fun c hc => h c (List.mem_cons_of_mem _ hc)
    rw [List.cons_append, scan, if_pos (h c List.mem_cons_self), ih hgap, byteLength_cons,
      Nat.add_assoc]

/-- A run of digits that does not go on is a literal. -/
theorem scan_integer {run rest : List Char} (hrun : run ≠ []) (hdigits : ∀ c ∈ run, c.isDigit)
    (hrest : ∀ c ∈ rest.head?, ¬ c.isDigit) (offset : Nat) :
    scan offset (run ++ rest) =
      ⟨offset, offset + byteLength run, .token (.integer (.ofDigits run))⟩ ::
        scan (offset + byteLength run) rest := by
  obtain ⟨c, more, rfl⟩ := List.exists_cons_of_ne_nil hrun
  have hdigit : c.isDigit := hdigits c List.mem_cons_self
  have hmore : ∀ c ∈ more, c.isDigit := fun c hc => hdigits c (List.mem_cons_of_mem _ hc)
  have htake : (more ++ rest).takeWhile Char.isDigit = more :=
    (Span.run_eq_takeWhile hmore hrest).symm
  have hdrop : (more ++ rest).dropWhile Char.isDigit = rest :=
    (Span.behind_eq_dropWhile hmore hrest).symm
  rw [List.cons_append, scan, if_neg (not_isBlank_of_isDigit hdigit), if_pos hdigit]
  simp only [htake, hdrop]

/-- A symbol is its token, whatever follows. -/
theorem scan_symbol {c : Char} {token : Token} (h : (c, token) ∈ Token.symbols) (rest : List Char)
    (offset : Nat) :
    scan offset (c :: rest) =
      ⟨offset, offset + byteLength [c], .token token⟩ :: scan (offset + byteLength [c]) rest := by
  obtain ⟨hblank, hdigit⟩ := Token.plain_of_mem_symbols h
  rw [scan, if_neg hblank, if_neg hdigit, readChar, Token.ofChar?_eq_some_iff.2 h]
  rfl

end Lexeme

/-- A token that is written is a literal or a symbol. -/
theorem Token.cases_spelling {token : Token} (h : token.spelling ≠ []) :
    (∃ value, token = .integer (.exact value)) ∨
      ∃ c, token.spelling = [c] ∧ (c, token) ∈ symbols := by
  cases token with
  | integer literal =>
    cases literal with
    | exact value => exact .inl ⟨value, rfl⟩
    | rounded value => exact absurd rfl h
  | operator op =>
    refine .inr ⟨op.symbol, rfl, ?_⟩
    cases op <;> simp [symbols, Operator.symbol]
  | leftParen => exact .inr ⟨'(', rfl, by simp [symbols]⟩
  | rightParen => exact .inr ⟨')', rfl, by simp [symbols]⟩
  | endOfInput => exact absurd rfl h

/-- Tokens that can be told apart when they are written side by side: no literal follows another. -/
def Apart (tokens : List Token) : Prop :=
  ∀ front literal literal' back,
    tokens ≠ front ++ .integer literal :: .integer literal' :: back

/-- What is written begins with a blank or with the first token, and so with no digit if that is no
    literal. -/
theorem head_write_not_digit {gap : Nat → List Char} {tokens : List Token}
    (hblank : ∀ n, ∀ c ∈ gap n, isBlank c) (hspelled : ∀ token ∈ tokens, token.spelling ≠ [])
    (hfirst : ∀ literal more, tokens ≠ .integer literal :: more) :
    ∀ c ∈ (write gap tokens).head?, ¬ c.isDigit := by
  intro c hc hdigit
  have hgap : c ∉ gap 0 := fun hmem => not_isBlank_of_isDigit hdigit (hblank 0 c hmem)
  rcases hfront : gap 0 with _ | ⟨d, more⟩
  · cases tokens with
    | nil =>
      rw [write, hfront] at hc
      cases hc
    | cons token more =>
      rcases Token.cases_spelling (hspelled token List.mem_cons_self) with
        ⟨value, rfl⟩ | ⟨d, hspelling, hsymbol⟩
      · exact hfirst _ _ rfl
      · rw [write, hfront, hspelling] at hc
        obtain rfl : d = c := Option.some.inj hc
        exact (Token.plain_of_mem_symbols hsymbol).2 hdigit
  · have hhead : (write gap tokens).head? = some d := by
      cases tokens <;> rw [write, hfront] <;> rfl
    rw [hhead] at hc
    obtain rfl : d = c := Option.some.inj hc
    exact hgap (by rw [hfront]; exact List.mem_cons_self)

/-- **What is written is read back**, each token where it was written.  The induction is on the
    tokens, for any offset and any gaps, since what follows a token has both of its own. -/
theorem placed_scan_write {tokens : List Token} :
    ∀ (offset : Nat) (gap : Nat → List Char), (∀ n, ∀ c ∈ gap n, isBlank c) →
      (∀ token ∈ tokens, token.spelling ≠ []) → Apart tokens →
      (Lexeme.scan offset (write gap tokens)).map Lexeme.placed =
        writtenFrom offset gap tokens := by
  induction tokens with
  | nil =>
    intro offset gap hblank _ _
    have hscan := Lexeme.scan_blanks (hblank 0) [] offset
    rw [List.append_nil] at hscan
    rw [write, hscan, Lexeme.scan]
    rfl
  | cons token more ih =>
    intro offset gap hblank hspelled hapart
    have hrest := ih (offset + byteLength (gap 0) + byteLength token.spelling)
      (fun n => gap (n + 1)) (fun n => hblank (n + 1))
      (fun token hmem => hspelled token (List.mem_cons_of_mem _ hmem))
      (fun front literal literal' back heq => hapart (token :: front) literal literal' back
        (by rw [heq]; rfl))
    rw [write, List.append_assoc, Lexeme.scan_blanks (hblank 0), writtenFrom]
    rcases Token.cases_spelling (hspelled token List.mem_cons_self) with
      ⟨value, rfl⟩ | ⟨c, hspelling, hsymbol⟩
    · have hnext : ∀ c ∈ (write (fun n => gap (n + 1)) more).head?, ¬ c.isDigit := by
        refine head_write_not_digit (fun n => hblank (n + 1))
          (fun token hmem => hspelled token (List.mem_cons_of_mem _ hmem)) ?_
        rintro literal back rfl
        exact hapart [] _ literal back rfl
      rw [Token.spelling] at hrest ⊢
      rw [Lexeme.scan_integer (digits_ne_nil _) (fun c hc => isDigit_of_mem_digits hc) hnext,
        List.map_cons, hrest, Lexeme.placed, Literal.ofDigits_digits]
    · rw [hspelling] at hrest ⊢
      rw [List.singleton_append, Lexeme.scan_symbol hsymbol, List.map_cons, hrest]
      rfl

/-- In an expression no literal follows another. -/
theorem apart_of_sentence {limit : Nat} {tokens : List Token} (h : Sentence limit tokens) :
    Apart tokens := by
  rintro front literal literal' back rfl
  rw [sentence_iff_after, List.map_append, Expectation.after_append] at h
  obtain ⟨s, _, hback⟩ := Option.bind_eq_some_iff.1 h
  rw [List.map_cons, List.map_cons, Expectation.after_cons] at hback
  obtain ⟨s', hnext, hafter⟩ := Option.bind_eq_some_iff.1 hback
  rw [Expectation.after_cons] at hafter
  obtain ⟨_, hnext', _⟩ := Option.bind_eq_some_iff.1 hafter
  -- behind the first of them something else than an operand is wanted
  rcases Expectation.next_cases hnext with ⟨opened, _, _, _, rfl⟩ | ⟨_, _, h, _⟩ |
    ⟨_, _, _, h, _⟩ | ⟨_, _, h, _⟩
  · cases hnext'
  · cases h
  · cases h
  · cases h

/-- Parentheses are written, and so is what stands in them. -/
theorem spelling_ne_nil_of_mem_bracket {needed : Bool} {tokens : List Token}
    (h : ∀ token ∈ tokens, token.spelling ≠ []) :
    ∀ token ∈ Tree.bracket needed tokens, token.spelling ≠ [] := by
  intro token hmem
  cases needed with
  | false => exact h token hmem
  | true =>
    rcases List.mem_cons.1 hmem with rfl | hmem
    · simp [Token.spelling]
    · rcases List.mem_append.1 hmem with hmem | hmem
      · exact h token hmem
      · rw [List.mem_singleton.1 hmem]
        simp [Token.spelling]

/-- All tokens of a tree are written. -/
theorem spelling_ne_nil (t : Tree) : ∀ token ∈ t.tokens, token.spelling ≠ [] := by
  induction t with
  | literal value =>
    intro token hmem
    rw [List.mem_singleton.1 hmem]
    exact digits_ne_nil _
  | binary op left right ih₁ ih₂ =>
    intro token hmem
    rcases List.mem_append.1 hmem with hmem | hmem
    · exact spelling_ne_nil_of_mem_bracket ih₁ token hmem
    · rcases List.mem_cons.1 hmem with rfl | hmem
      · simp [Token.spelling]
      · exact spelling_ne_nil_of_mem_bracket ih₂ token hmem

/-- Written tokens are the tokens. -/
theorem map_reading_writtenFrom (tokens : List Token) :
    ∀ (offset : Nat) (gap : Nat → List Char),
      (writtenFrom offset gap tokens).map Placed.reading = tokens.map Reading.token := by
  induction tokens with
  | nil => exact fun _ _ => rfl
  | cons token more ih =>
    intro offset gap
    rw [writtenFrom, List.map_cons, List.map_cons, ih]

/-- **A tree that is written out is read back**, token by token. -/
theorem placed_ofText_render {t : Tree} {gap : Nat → List Char} {limit : Nat}
    (hblank : ∀ n, ∀ c ∈ gap n, isBlank c) (hsentence : Sentence limit t.tokens) :
    Placed.ofText (t.render gap) = writtenFrom 0 gap t.tokens := by
  rw [Placed.ofText, Tree.render, String.toList_ofList]
  exact placed_scan_write 0 gap hblank (spelling_ne_nil t) (apart_of_sentence hsentence)

end Calculator
