/-
  How many parentheses are open.

  Problem: say of any pieces, whether an expression or not, how many parentheses are open behind
  them, so that the nesting of a text can be told from the text alone.

  1. **Count** — `openedBehind`: an opening parenthesis adds one, a closing one takes one away if
     one is open, and nothing else matters.  `unclosed` counts from the start of a text.  A group
     that has been closed no longer counts.

  2. **Agreement** — the count is what the automaton of the grammar keeps (`openedBehind_of_after`),
     and a phrase closes what it opens (`openedBehind_placed`).  How deep a phrase is nested is the
     most that is open somewhere inside it (`exists_front_nesting`).

  3. **Characters (`count_scan_leftParen`)** — every opening parenthesis of a text is a token, so
     that the characters bound how many can be open at once.
-/
import Calculator.Proofs.Expectation
import Calculator.Proofs.Tokenization

namespace Calculator

/-! ## Counting -/

/-- How many parentheses are open behind a piece, if so many are in front of it. -/
def Reading.openedBehind (opened : Nat) : Reading → Nat
  | .token .leftParen => opened + 1
  | .token .rightParen => opened - 1
  | .token (.integer _) | .token (.operator _) | .token .endOfInput | .stray _ => opened

/-- How many parentheses are open behind some pieces, if so many are in front of them. -/
def openedBehind (opened : Nat) (readings : List Reading) : Nat :=
  readings.foldl Reading.openedBehind opened

/-- How many parentheses are open behind the first pieces of a text. -/
def unclosed (before : List Placed) : Nat := openedBehind 0 (before.map Placed.reading)

theorem openedBehind_cons (opened : Nat) (reading : Reading) (readings : List Reading) :
    openedBehind opened (reading :: readings) =
      openedBehind (reading.openedBehind opened) readings := rfl

theorem openedBehind_append (opened : Nat) (front back : List Reading) :
    openedBehind opened (front ++ back) = openedBehind (openedBehind opened front) back :=
  List.foldl_append

/-- No more are open than have been opened. -/
theorem openedBehind_le (readings : List Reading) :
    ∀ opened, openedBehind opened readings ≤ opened + readings.count (.token .leftParen) := by
  induction readings with
  | nil =>
    intro opened
    exact Nat.le_refl _
  | cons reading readings ih =>
    intro opened
    have hrest := ih (reading.openedBehind opened)
    have hcount := List.count_cons (a := Reading.token .leftParen) (b := reading) (l := readings)
    rw [openedBehind_cons]
    rcases reading with (_ | _ | _ | _ | _) | _ <;>
      simp only [Reading.openedBehind, beq_iff_eq, Reading.token.injEq, reduceCtorEq, if_true,
        if_false] at hrest hcount ⊢ <;> omega

/-! ## The automaton and phrases -/

namespace Expectation

variable {limit : Nat} {s s' : Expectation}

/-- The automaton keeps the count. -/
theorem openedBehind_of_next {reading : Reading} (h : next limit s reading = some s') :
    reading.openedBehind s.opened = s'.opened := by
  rcases next_cases h with ⟨opened, literal, rfl, rfl, rfl⟩ | ⟨opened, rfl, rfl, _, rfl⟩ |
    ⟨opened, op, rfl, rfl, rfl⟩ | ⟨opened, rfl, rfl, rfl⟩ <;> rfl

/-- So it does over a run. -/
theorem openedBehind_of_after {readings : List Reading} :
    ∀ {s : Expectation}, after limit s readings = some s' →
      openedBehind s.opened readings = s'.opened := by
  induction readings with
  | nil =>
    intro s h
    cases h
    rfl
  | cons reading readings ih =>
    intro s h
    rw [after_cons] at h
    obtain ⟨reached, hnext, hafter⟩ := Option.bind_eq_some_iff.1 h
    rw [openedBehind_cons, openedBehind_of_next hnext]
    exact ih hafter

end Expectation

/-- A phrase closes all that it opens. -/
theorem openedBehind_placed {k : Nonterminal} (e : Phrase k) (opened : Nat) :
    openedBehind opened (e.placed.map Placed.reading) = opened := by
  -- the automaton goes through the phrase under a limit that is high enough
  have hafter := Expectation.after_placed e opened (Nat.le_refl (opened + e.nesting))
  have hopened := Expectation.openedBehind_of_after hafter
  cases k <;> exact hopened

/-- **Nesting is the most that is open at once.**  Somewhere in a phrase as many parentheses are
    open as it is nested deep, besides those that are open around it. -/
theorem exists_front_nesting {k : Nonterminal} (e : Phrase k) :
    ∀ opened, ∃ front back, e.placed = front ++ back ∧
      openedBehind opened (front.map Placed.reading) = opened + e.nesting := by
  induction e with
  | integer literal position =>
    intro opened
    exact ⟨[], _, rfl, rfl⟩
  | group opening inner closing ih =>
    intro opened
    obtain ⟨front, back, hsplit, hfront⟩ := ih (opened + 1)
    refine ⟨⟨.token .leftParen, opening⟩ :: front, back ++ [⟨.token .rightParen, closing⟩], ?_, ?_⟩
    · rw [Phrase.placed, hsplit, List.append_assoc, List.cons_append]
    · show openedBehind (opened + 1) (front.map Placed.reading) = opened + (inner.nesting + 1)
      rw [hfront]
      omega
  | term inner ih => exact ih
  | chain first more ih₁ ih₂ =>
    intro opened
    rcases Nat.le_total more.nesting first.nesting with hle | hle
    · obtain ⟨front, back, hsplit, hfront⟩ := ih₁ opened
      refine ⟨front, back ++ more.placed, ?_, ?_⟩
      · rw [Phrase.placed, hsplit, List.append_assoc]
      · rw [hfront, Phrase.nesting, Nat.max_eq_left hle]
    · obtain ⟨front, back, hsplit, hfront⟩ := ih₂ opened
      refine ⟨first.placed ++ front, back, ?_, ?_⟩
      · rw [Phrase.placed, hsplit, List.append_assoc]
      · rw [List.map_append, openedBehind_append, openedBehind_placed, hfront, Phrase.nesting,
          Nat.max_eq_right hle]
  | done =>
    intro opened
    exact ⟨[], [], rfl, rfl⟩
  | round op position hlevel right more ih₁ ih₂ =>
    intro opened
    let operator : Placed := ⟨.token (.operator op), position⟩
    rcases Nat.le_total more.nesting right.nesting with hle | hle
    · obtain ⟨front, back, hsplit, hfront⟩ := ih₁ opened
      refine ⟨operator :: front, back ++ more.placed, ?_, ?_⟩
      · rw [Phrase.placed, hsplit, List.append_assoc, List.cons_append]
      · show openedBehind opened (front.map Placed.reading) = _
        rw [hfront, Phrase.nesting, Nat.max_eq_left hle]
    · obtain ⟨front, back, hsplit, hfront⟩ := ih₂ opened
      refine ⟨operator :: (right.placed ++ front), back, ?_, ?_⟩
      · rw [Phrase.placed, hsplit, List.cons_append, List.append_assoc]
      · show openedBehind opened ((right.placed ++ front).map Placed.reading) = _
        rw [List.map_append, openedBehind_append, openedBehind_placed, hfront, Phrase.nesting,
          Nat.max_eq_right hle]

/-! ## Characters -/

/-- The opening parenthesis is the one character that writes its token. -/
theorem Lexeme.readChar_eq_leftParen {c : Char} : readChar c = .token .leftParen ↔ c = '(' := by
  constructor
  · intro h
    rw [readChar] at h
    split at h
    · next token htoken =>
      cases h
      have hmem := Token.ofChar?_eq_some_iff.1 htoken
      simpa [Token.symbols] using hmem
    · cases h
  · rintro rfl
    rfl

/-- **Every opening parenthesis of a text is a token.** -/
theorem Lexeme.count_scan_leftParen (offset : Nat) (text : List Char) :
    ((scan offset text).map Lexeme.reading).count (.token .leftParen) = text.count '(' := by
  fun_induction scan offset text with
  | case1 => rfl
  | case2 offset c rest hblank ih =>
    have hc : c ≠ '(' := by
      rintro rfl
      exact absurd hblank (by decide)
    rw [List.count_cons_of_ne hc]
    exact ih
  | case3 offset c rest hblank hdigit run stop ih =>
    have hrun : '(' ∉ run := by
      intro hmem
      have hparen : ('(' : Char).isDigit := by
        rcases List.mem_cons.1 hmem with rfl | hmem
        · exact hdigit
        · exact List.all_eq_true.1 List.all_takeWhile _ hmem
      exact absurd hparen (by decide)
    have hsplit : c :: rest = run ++ rest.dropWhile Char.isDigit := by
      simp only [run, List.cons_append, List.takeWhile_append_dropWhile]
    rw [List.map_cons, List.count_cons_of_ne (by simp), ih, hsplit, List.count_append,
      List.count_eq_zero.2 hrun, Nat.zero_add]
  | case4 offset c rest hblank hdigit stop ih =>
    rw [List.map_cons, List.count_cons, List.count_cons, ih]
    by_cases hc : c = '('
    · subst hc
      rfl
    · have hreading : readChar c ≠ .token .leftParen := fun h => hc (readChar_eq_leftParen.1 h)
      rw [if_neg (by simpa using hreading), if_neg (by simpa using hc)]

/-- What is open before an opening parenthesis of a text is less than its opening parentheses. -/
theorem unclosed_lt_count {text : String} {before behind : List Placed} {position : Nat}
    (h : Placed.ofText text = before ++ ⟨.token .leftParen, position⟩ :: behind) :
    unclosed before < text.toList.count '(' := by
  have hcount := Lexeme.count_scan_leftParen 0 text.toList
  have hreadings : (Lexeme.scan 0 text.toList).map Lexeme.reading =
      (Placed.ofText text).map Placed.reading := by
    rw [Placed.ofText, List.map_map]
    rfl
  rw [hreadings, h, List.map_append, List.count_append, List.map_cons,
    List.count_cons_self] at hcount
  have hopened : unclosed before ≤ 0 + (before.map Placed.reading).count (.token .leftParen) :=
    openedBehind_le _ 0
  omega

end Calculator
