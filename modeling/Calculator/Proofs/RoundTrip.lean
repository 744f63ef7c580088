/-
  What is written out is read back as it was meant.

  Problem: a tree that is written out with as few parentheses as possible is evaluated as a text.
  Show that the outcome is the value of the tree, or the fault of its first operator that fails, at
  the place where that operator was written.

  1. **Specification** — `Tree.Written`: pieces with the tokens of a tree, whose operators stand at
     given places.  `Tree.Chains` says that such pieces begin a chain of some level, with any rounds
     behind them, and `Tree.Operates` that they are an operand of one; in either case the phrase
     means what the tree means.

  2. **The crux (`Tree.chains_binary`)** — a tree begins a chain of the level of its own operator if
     its left child does and its right child is an operand: the operator is the first of the rounds
     behind the left child.  That is what grouping from the left means, and it is why a right child
     of the same level needs parentheses and a left one does not.

  3. **Induction (`Tree.chains_and_operates`)** — on the tree, for both levels at once.  From its
     own level a tree gets to the other one by a chain without rounds of its own, or by parentheses.

  4. **Result (`evaluateWith_render`)** — a text that is written out has the pieces of an
     expression, and so the meaning of this expression for an outcome.
-/
import Mathlib.Data.List.Infix
import Calculator.Proofs.Acceptance
import Calculator.Proofs.Rendering

namespace Calculator

open Text

/-! ## Trees and phrases -/

namespace Tree

/-- Pieces with the tokens of a tree, in parentheses if these are needed, where the operators stand
    at the given places. -/
structure Written (t : Tree) (needed : Bool) (place : Nat → Nat) (written : List Placed) :
    Prop where
  reading_eq : written.map Placed.reading = (bracket needed t.tokens).map Reading.token
  place_eq : ∀ (n position : Nat), (operatorPlaces written)[n]? = some position →
    place n = position

/-- The tree begins a chain of the level, whatever rounds follow it. -/
def Chains (level : Level) (t : Tree) : Prop :=
  ∀ (place : Nat → Nat) (written : List Placed) (more : Phrase (.rounds level)),
    t.Written (bracketsLeft level t) place written →
      ∃ e : Phrase (.chain level), e.placed = written ++ more.placed ∧
        e.eval = (do let x ← t.eval place; more.eval x)

/-- The tree is an operand of a chain of the level. -/
def Operates (level : Level) (t : Tree) : Prop :=
  ∀ (place : Nat → Nat) (written : List Placed), t.Written (bracketsRight level t) place written →
    ∃ e : Phrase (.operand level), e.placed = written ∧ e.eval = t.eval place

variable {level : Level} {t left right : Tree} {op : Operator} {place : Nat → Nat}
  {written : List Placed}

/-- As many operators are written as there are. -/
theorem length_operatorPlaces_eq {needed : Bool}
    (h : written.map Placed.reading = (bracket needed t.tokens).map Reading.token) :
    (operatorPlaces written).length = t.operators := by
  rw [length_operatorPlaces, h, countP_bracket, countP_tokens]

/-- What is written of a tree is its left child, its operator and its right child, and the operators
    of the children stand at their places. -/
theorem Written.binary (h : (Tree.binary op left right).Written false place written) :
    ∃ front back, written = front ++ ⟨.token (.operator op), place left.operators⟩ :: back ∧
      left.Written (bracketsLeft op.level left) place front ∧
      right.Written (bracketsRight op.level right) (fun n => place (left.operators + 1 + n))
        back := by
  have hreading := h.reading_eq
  rw [bracket, if_neg Bool.false_ne_true, tokens, List.map_append, List.map_cons] at hreading
  obtain ⟨front, rest, rfl, hfront, hrest⟩ := List.map_eq_append_iff.1 hreading
  obtain ⟨⟨reading, position⟩, back, rfl, hop, hback⟩ := List.map_eq_cons_iff.1 hrest
  obtain rfl : reading = .token (.operator op) := hop
  have hlength : (operatorPlaces front).length = left.operators := length_operatorPlaces_eq hfront
  have hplaces : operatorPlaces (front ++ ⟨.token (.operator op), position⟩ :: back) =
      operatorPlaces front ++ position :: operatorPlaces back := operatorPlaces_append _ _
  have hplace := h.place_eq
  rw [hplaces] at hplace
  have hposition : place left.operators = position := by
    refine hplace _ _ ?_
    rw [← hlength, List.getElem?_append_right (Nat.le_refl _), Nat.sub_self]
    rfl
  refine ⟨front, back, by rw [hposition], ⟨hfront, fun n p hp => hplace n p ?_⟩,
    ⟨hback, fun n p hp => hplace _ p ?_⟩⟩
  · have hlt : n < (operatorPlaces front).length := by
      obtain ⟨hlt, _⟩ := List.getElem?_eq_some_iff.1 hp
      exact hlt
    rw [List.getElem?_append_left hlt]
    exact hp
  · rw [← hlength, List.getElem?_append_right (by omega),
      show (operatorPlaces front).length + 1 + n - (operatorPlaces front).length = n + 1 by omega]
    exact hp

/-- What is written of a tree in parentheses is written between them. -/
theorem Written.group (h : t.Written true place written) :
    ∃ opening inner closing, written = ⟨.token .leftParen, opening⟩ :: (inner ++
        [⟨.token .rightParen, closing⟩]) ∧ t.Written false place inner := by
  have hreading := h.reading_eq
  rw [bracket, if_pos rfl, List.map_cons, List.map_append, List.map_singleton] at hreading
  obtain ⟨⟨reading, opening⟩, rest, rfl, hopening, hrest⟩ := List.map_eq_cons_iff.1 hreading
  obtain ⟨inner, last, rfl, hinner, hlast⟩ := List.map_eq_append_iff.1 hrest
  obtain ⟨⟨reading', closing⟩, rfl, hclosing⟩ := List.map_eq_singleton_iff.1 hlast
  obtain rfl : reading = .token .leftParen := hopening
  obtain rfl : reading' = .token .rightParen := hclosing
  refine ⟨opening, inner, closing, rfl, hinner, fun n position hn => h.place_eq n position ?_⟩
  -- neither of the parentheses is an operator
  have hplaces : operatorPlaces (⟨.token .leftParen, opening⟩ :: (inner ++
      [⟨.token .rightParen, closing⟩])) = operatorPlaces inner ++ [] :=
    operatorPlaces_append inner [⟨.token .rightParen, closing⟩]
  rw [hplaces, List.append_nil]
  exact hn

/-! ## From one context to another -/

/-- An operand begins a chain. -/
theorem chains_of_operates (h : t.Operates level)
    (hbrackets : bracketsLeft level t = bracketsRight level t) : t.Chains level := by
  intro place written more hwritten
  rw [hbrackets] at hwritten
  obtain ⟨e, rfl, heval⟩ := h place written hwritten
  refine ⟨.chain e more, rfl, ?_⟩
  rw [← heval]
  rfl

/-- A chain of products is an operand of a sum. -/
theorem operates_sum (h : t.Chains .product) : t.Operates .sum := by
  have hbrackets : bracketsLeft .product t = bracketsRight .sum t := by
    simp [bracketsLeft, bracketsRight]
  intro place written hwritten
  rw [← hbrackets] at hwritten
  obtain ⟨e, hplaced, heval⟩ := h place written .done hwritten
  refine ⟨.term e, ?_, ?_⟩
  · show e.placed = written
    rw [hplaced]
    exact List.append_nil _
  · show e.eval = _
    rw [heval]
    exact bind_pure _

/-- In parentheses everything is an operand of a product. -/
theorem operates_product (h : t.Chains .sum) (hbrackets : bracketsRight .product t = true) :
    t.Operates .product := by
  have hinside : bracketsLeft .sum t = false := by simp [bracketsLeft]
  intro place written hwritten
  rw [hbrackets] at hwritten
  obtain ⟨opening, inner, closing, rfl, hinner⟩ := hwritten.group
  rw [← hinside] at hinner
  obtain ⟨e, hplaced, heval⟩ := h place inner .done hinner
  refine ⟨.group opening e closing, ?_, ?_⟩
  · show _ :: (e.placed ++ _) = _
    rw [hplaced, show (Phrase.done : Phrase (.rounds .sum)).placed = [] from rfl, List.append_nil]
  · show e.eval = _
    rw [heval]
    exact bind_pure _

/-- **A tree begins a chain of its own level** if its left child does and its right child is an
    operand: its operator is the first of the rounds behind the left child. -/
theorem chains_binary (hleft : left.Chains op.level) (hright : right.Operates op.level) :
    (Tree.binary op left right).Chains op.level := by
  have hbrackets : bracketsLeft op.level (Tree.binary op left right) = false := by
    cases op <;> rfl
  intro place written more hwritten
  rw [hbrackets] at hwritten
  obtain ⟨front, back, rfl, hfront, hback⟩ := hwritten.binary
  obtain ⟨operand, rfl, hoperand⟩ := hright _ back hback
  obtain ⟨e, hplaced, heval⟩ := hleft place front
    (.round op (place left.operators) rfl operand more) hfront
  refine ⟨e, ?_, ?_⟩
  · rw [hplaced, List.append_assoc]
    rfl
  · rw [heval]
    simp only [Phrase.eval, hoperand, Tree.eval, bind_assoc]

/-- A literal is an operand of a product. -/
theorem operates_literal (value : UInt64) : (Tree.literal value).Operates .product := by
  intro place written hwritten
  obtain ⟨⟨reading, position⟩, rfl, hreading⟩ := List.map_eq_singleton_iff.1 hwritten.reading_eq
  obtain rfl : reading = .token (.integer (.exact value)) := hreading
  refine ⟨.integer (.exact value) position, rfl, ?_⟩
  show (Binary64.ofNat value.toNat).checked position = .ok (.ofNat value.toNat)
  rw [Binary64.checked, if_pos (Binary64.isFinite_ofNat value)]

/-- A tree with a sum at the top gets into parentheses where a product is wanted. -/
theorem chains_and_operates_of_sum (hlevel : t.level? = some .sum) (h : t.Chains .sum) :
    ∀ level, t.Chains level ∧ t.Operates level := by
  have hoperates : t.Operates .product := operates_product h (by simp [bracketsRight, hlevel])
  have hchains : t.Chains .product :=
    chains_of_operates hoperates (by simp [bracketsLeft, bracketsRight, hlevel])
  intro level
  cases level with
  | sum => exact ⟨h, operates_sum hchains⟩
  | product => exact ⟨hchains, hoperates⟩

/-- A tree with a product at the top is an operand of sums as it is, and gets into parentheses only
    as an operand of a product. -/
theorem chains_and_operates_of_product (hlevel : t.level? = some .product) (h : t.Chains .product) :
    ∀ level, t.Chains level ∧ t.Operates level := by
  have hoperates : t.Operates .sum := operates_sum h
  have hchains : t.Chains .sum :=
    chains_of_operates hoperates (by simp [bracketsLeft, bracketsRight, hlevel])
  intro level
  cases level with
  | sum => exact ⟨hchains, hoperates⟩
  | product => exact ⟨h, operates_product hchains (by simp [bracketsRight, hlevel])⟩

/-- A literal never gets into parentheses. -/
theorem chains_and_operates_literal (value : UInt64) :
    ∀ level, (Tree.literal value).Chains level ∧ (Tree.literal value).Operates level := by
  have hproduct : (Tree.literal value).Chains .product :=
    chains_of_operates (operates_literal value) rfl
  have hsum : (Tree.literal value).Operates .sum := operates_sum hproduct
  intro level
  cases level with
  | sum => exact ⟨chains_of_operates hsum rfl, hsum⟩
  | product => exact ⟨hproduct, operates_literal value⟩

/-- **Every tree begins a chain of either level, and is an operand of either**, with parentheses
    where the printer puts them. -/
theorem chains_and_operates (t : Tree) : ∀ level, t.Chains level ∧ t.Operates level := by
  induction t with
  | literal value => exact chains_and_operates_literal value
  | binary op left right ih₁ ih₂ =>
    have hchains := chains_binary (ih₁ op.level).1 (ih₂ op.level).2
    have hlevel : (Tree.binary op left right).level? = some op.level := rfl
    rcases hop : op.level with _ | _
    · rw [hop] at hchains hlevel
      exact chains_and_operates_of_sum hlevel hchains
    · rw [hop] at hchains hlevel
      exact chains_and_operates_of_product hlevel hchains

/-- What is written of a tree is an expression with the meaning of the tree. -/
theorem exists_expression (h : t.Written false place written) :
    ∃ e : Expression, e.placed = written ∧ e.eval = t.eval place := by
  obtain ⟨e, hplaced, heval⟩ := (t.chains_and_operates .sum).1 place written .done h
  refine ⟨e, ?_, ?_⟩
  · rw [hplaced]
    exact List.append_nil _
  · rw [heval]
    exact bind_pure _

/-- The operators that are written stand where they are written. -/
theorem written_writtenFrom (t : Tree) (gap : Nat → List Char) :
    t.Written false (t.operatorOffset gap) (writtenFrom 0 gap t.tokens) := by
  refine ⟨map_reading_writtenFrom t.tokens 0 gap, fun n position hn => ?_⟩
  rw [operatorOffset, List.getD_eq_getElem?_getD, hn]
  rfl

end Tree

/-- An expression is nested no deeper than its tokens are. -/
theorem nesting_le_of_nestedWithin {limit : Nat} {tokens : List Token} {e : Expression}
    (htokens : e.placed.map Placed.reading = tokens.map Reading.token)
    (h : NestedWithin limit tokens) : e.nesting ≤ limit := by
  obtain ⟨front, back, hsplit, hfront⟩ := exists_front_nesting e 0
  rw [hsplit, List.map_append] at htokens
  obtain ⟨tokens', more, rfl, htokens', _⟩ := List.map_eq_append_iff.1 htokens.symm
  have hle := h tokens' ((List.mem_inits _ _).2 (List.prefix_append _ _))
  rw [htokens', hfront] at hle
  omega

/-- **Written out and evaluated, a tree has its own meaning.**  With parentheses only where they are
    needed, any blanks between the tokens, and the parentheses nested within the limit, the outcome
    is the value of the tree, or the fault of its first operator that fails; and that fault lies at
    the place where the operator has been written. -/
theorem evaluateWith_render (maxDepth : Nat) (t : Tree) (gap : Nat → List Char)
    (hblank : ∀ n, ∀ c ∈ gap n, isBlank c) (hnested : NestedWithin maxDepth t.tokens) :
    evaluateWith ⟨maxDepth, .rejected⟩ (t.render gap) = t.eval (t.operatorOffset gap) ∧
      ∀ n, n < t.operators → (operatorPlaces (Placed.ofText (t.render gap)))[n]? =
        some (t.operatorOffset gap n) := by
  have hwritten := t.written_writtenFrom gap
  obtain ⟨e, hplaced, heval⟩ := Tree.exists_expression hwritten
  have htokens : e.placed.map Placed.reading = t.tokens.map Reading.token := by
    rw [hplaced]
    exact hwritten.reading_eq
  have hnesting := nesting_le_of_nestedWithin htokens hnested
  have hsentence : Sentence maxDepth t.tokens := by
    refine ⟨e, hnesting, ?_⟩
    rw [e.map_reading_placed] at htokens
    exact (List.map_inj_right fun _ _ => Reading.token.inj).1 htokens
  have htext : Placed.ofText (t.render gap) = writtenFrom 0 gap t.tokens :=
    placed_ofText_render hblank hsentence
  constructor
  · rw [evaluateWith_of_placed (htext.trans hplaced.symm) hnesting]
    exact heval
  · intro n hn
    rw [← Tree.length_operatorPlaces_eq hwritten.reading_eq] at hn
    rw [htext, Tree.operatorOffset, List.getD_eq_getElem?_getD, List.getElem?_eq_getElem hn]
    rfl

/-- A division behind two subtractions, the second of which is a right child and in parentheses. -/
theorem render_division_in_parentheses :
    let t : Tree := .binary .sub (.literal 8) (.binary .sub (.literal 30)
      (.binary .div (.literal 1) (.literal 0)))
    let gap : Nat → List Char := fun n => if n = 3 then ['\u3000', '\n'] else []
    (∀ n, ∀ c ∈ gap n, isBlank c) ∧ NestedWithin 1 t.tokens ∧
      t.render gap = "8-(\u3000\n30-1/0)" ∧
      evaluateWith ⟨1, .rejected⟩ (t.render gap) = t.eval (t.operatorOffset gap) ∧
      t.eval (t.operatorOffset gap) = .error ⟨.divisionByZero, 11⟩ := by
  intro t gap
  have hblank : ∀ n, ∀ c ∈ gap n, isBlank c := by
    intro n c hc
    by_cases hn : n = 3
    · simp only [gap, if_pos hn, List.mem_cons, List.not_mem_nil, or_false] at hc
      rcases hc with rfl | rfl <;> decide
    · simp only [gap, if_neg hn, List.not_mem_nil] at hc
  have hnested : NestedWithin 1 t.tokens := by
    unfold NestedWithin
    decide +kernel
  exact ⟨hblank, hnested, by decide +kernel, (evaluateWith_render 1 t gap hblank hnested).1,
    by decide +kernel⟩

end Calculator
