/-
  The pieces of a text are exact and lossless.

  Problem: say which pieces a text falls into without saying how they are found, and show that there
  is one answer and that a cursor hands out this one.

  1. **Specification** — `Span`: a stretch of the text, as the characters in it, before it and
     behind it, so that its ends lie between characters whatever their widths.  `Span.Reads` says
     what a span is: a run of digits that goes on at neither end, a symbol, or a character that is
     nothing else.  `IsCut` says that pieces are such spans, in order, and that only blanks lie
     outside.

  2. **Existence (`isCut_scan`)** — the scan gives a cut.  It knows nothing of what lies behind it,
     so that a run does not begin too late has to be carried along: when the scan stands at a digit,
     no digit is in front of it (`Fresh`).

  3. **The crux (`Span.Reads.unique`)** — a piece is settled by the character it begins with.  In
     another cut this character is no blank either, so it lies in some piece; that piece cannot
     begin earlier, since then its digits would go on to the left of the first one, and it cannot
     end elsewhere.

  4. **Cursor (`next_skip`)** — the answers of a cursor are the pieces one by one, and then the end
     of the input again and again.
-/
import Calculator.Cursor
import Mathlib.Data.List.Sort

namespace Calculator

open Text

/-! ## Specification -/

/-- The characters with tokens of their own. -/
def Token.symbols : List (Char × Token) :=
  [('+', .operator .add), ('-', .operator .sub), ('*', .operator .mul), ('/', .operator .div),
    ('(', .leftParen), (')', .rightParen)]

/-- A stretch of a text. -/
structure Span (text : List Char) where
  before : List Char
  run : List Char
  behind : List Char
  text_eq : text = before ++ run ++ behind

namespace Span

variable {text : List Char}

/-- Where the span begins, in bytes. -/
def start (s : Span text) : Nat := byteLength s.before

/-- Where the span ends, in bytes. -/
def stop (s : Span text) : Nat := byteLength (s.before ++ s.run)

/-- What a span is, if it is a piece of its text. -/
inductive Reads (s : Span text) : Reading → Prop
  /-- All digits that stand together. -/
  | integer (hrun : s.run ≠ []) (hdigits : ∀ c ∈ s.run, c.isDigit)
      (hbefore : ∀ c ∈ s.before.getLast?, ¬ c.isDigit)
      (hbehind : ∀ c ∈ s.behind.head?, ¬ c.isDigit) :
      Reads s (.token (.integer (.ofDigits s.run)))
  | symbol (c : Char) (token : Token) (hrun : s.run = [c]) (hsymbol : (c, token) ∈ Token.symbols) :
      Reads s (.token token)
  /-- A character that is nothing else. -/
  | stray (c : Char) (hrun : s.run = [c]) (hblank : ¬ isBlank c) (hdigit : ¬ c.isDigit)
      (hsymbol : ∀ token, (c, token) ∉ Token.symbols) : Reads s (.stray c)

end Span

/-- The pieces of a text. -/
structure IsCut (text : List Char) (pieces : List Lexeme) : Prop where
  /-- Each piece is a span with its reading. -/
  spans : ∀ piece ∈ pieces, ∃ s : Span text, s.start = piece.start ∧ s.stop = piece.stop ∧
    s.Reads piece.reading
  /-- One begins behind the other, and not before it has ended. -/
  ordered : pieces.Pairwise fun piece later => piece.start < later.start ∧ piece.stop ≤ later.start
  /-- A character lies in one of them, or is blank. -/
  lossless : ∀ before c behind, text = before ++ c :: behind →
    isBlank c ∨ ∃ piece ∈ pieces, piece.start ≤ byteLength before ∧ byteLength before < piece.stop

/-! ## Characters -/

theorem Text.byteLength_eq_zero {cs : List Char} : byteLength cs = 0 ↔ cs = [] := by
  cases cs with
  | nil => simp
  | cons c cs =>
    have hwidth : 0 < c.utf8Size := c.utf8Size_pos
    simp only [byteLength_cons, reduceCtorEq, iff_false]
    omega

/-- A digit and the digits behind it are a run. -/
theorem Text.isDigit_of_mem_run {c : Char} {rest : List Char} (hdigit : c.isDigit) :
    ∀ d ∈ c :: rest.takeWhile Char.isDigit, d.isDigit := by
  intro d hd
  rcases List.mem_cons.1 hd with rfl | hd
  · exact hdigit
  · exact List.all_eq_true.1 List.all_takeWhile d hd

/-- No digit stands behind it. -/
theorem Text.not_isDigit_behind_run (rest : List Char) :
    ∀ d ∈ (rest.dropWhile Char.isDigit).head?, ¬ d.isDigit := by
  intro d hd
  have hnot := List.head?_dropWhile_not Char.isDigit rest
  rw [Option.mem_def.1 hd] at hnot
  simpa using hnot

/-- Digits are not blank. -/
theorem Text.not_isBlank_of_isDigit {c : Char} (h : c.isDigit) : ¬ isBlank c := by
  have hrange : 48 ≤ c.toNat ∧ c.toNat ≤ 57 := by
    simp only [Char.isDigit, Bool.and_eq_true, decide_eq_true_eq] at h
    exact h
  rw [isBlank, CodePoints.contains_iff]
  rintro ⟨range, hmem, hle⟩
  simp only [whiteSpace, List.mem_cons, List.not_mem_nil, or_false] at hmem
  rcases hmem with rfl | rfl | rfl | rfl | rfl | rfl | rfl | rfl | rfl | rfl <;> omega

/-- The symbols are the characters that write a token by themselves. -/
theorem Token.ofChar?_eq_some_iff {c : Char} {token : Token} :
    ofChar? c = some token ↔ (c, token) ∈ symbols := by
  constructor
  · intro h
    simp only [ofChar?] at h
    split at h
    · cases h
      simp [symbols, *]
    split at h
    · cases h
      simp [symbols, *]
    · obtain ⟨op, hop, rfl⟩ := Option.map_eq_some_iff.1 h
      rw [Operator.ofChar?_eq_some_iff.1 hop]
      cases op <;> simp [symbols, Operator.symbol]
  · intro h
    simp only [symbols, List.mem_cons, Prod.mk.injEq, List.not_mem_nil, or_false] at h
    rcases h with ⟨rfl, rfl⟩ | ⟨rfl, rfl⟩ | ⟨rfl, rfl⟩ | ⟨rfl, rfl⟩ | ⟨rfl, rfl⟩ | ⟨rfl, rfl⟩ <;>
      rfl

/-- Symbols are neither blank nor digits. -/
theorem Token.plain_of_mem_symbols {c : Char} {token : Token} (h : (c, token) ∈ symbols) :
    ¬ isBlank c ∧ ¬ c.isDigit := by
  simp only [symbols, List.mem_cons, Prod.mk.injEq, List.not_mem_nil, or_false] at h
  rcases h with ⟨rfl, _⟩ | ⟨rfl, _⟩ | ⟨rfl, _⟩ | ⟨rfl, _⟩ | ⟨rfl, _⟩ | ⟨rfl, _⟩ <;> decide

/-! ## One cut at most -/

namespace Span

variable {text : List Char}

/-- A span of one character that is neither blank nor a digit is what the scan takes it for. -/
theorem reads_readChar {s : Span text} {c : Char} (hrun : s.run = [c]) (hblank : ¬ isBlank c)
    (hdigit : ¬ c.isDigit) : s.Reads (Lexeme.readChar c) := by
  rw [Lexeme.readChar]
  rcases htoken : Token.ofChar? c with _ | token
  · refine .stray c hrun hblank hdigit fun token hsymbol => ?_
    rw [Token.ofChar?_eq_some_iff.2 hsymbol] at htoken
    cases htoken
  · exact .symbol c token hrun (Token.ofChar?_eq_some_iff.1 htoken)

/-- What is read is all the digits that stand together, or one character that is neither blank nor a
    digit. -/
theorem Reads.cases_digit {s : Span text} {reading : Reading} (h : s.Reads reading) :
    (s.run ≠ [] ∧ (∀ c ∈ s.run, c.isDigit) ∧ (∀ c ∈ s.before.getLast?, ¬ c.isDigit) ∧
      (∀ c ∈ s.behind.head?, ¬ c.isDigit) ∧ reading = .token (.integer (.ofDigits s.run))) ∨
    ∃ c, s.run = [c] ∧ ¬ isBlank c ∧ ¬ c.isDigit ∧ reading = Lexeme.readChar c := by
  cases h with
  | integer hrun hdigits hbefore hbehind => exact .inl ⟨hrun, hdigits, hbefore, hbehind, rfl⟩
  | symbol c token hrun hsymbol =>
    obtain ⟨hblank, hdigit⟩ := Token.plain_of_mem_symbols hsymbol
    refine .inr ⟨c, hrun, hblank, hdigit, ?_⟩
    rw [Lexeme.readChar, Token.ofChar?_eq_some_iff.2 hsymbol]
  | stray c hrun hblank hdigit hsymbol =>
    refine .inr ⟨c, hrun, hblank, hdigit, ?_⟩
    rcases htoken : Token.ofChar? c with _ | token
    · rw [Lexeme.readChar, htoken]
    · exact absurd (Token.ofChar?_eq_some_iff.1 htoken) (hsymbol token)

/-- A piece begins with a character, which is not blank. -/
theorem Reads.exists_cons {s : Span text} {reading : Reading} (h : s.Reads reading) :
    ∃ c more, s.run = c :: more ∧ ¬ isBlank c ∧ text = s.before ++ c :: (more ++ s.behind) := by
  obtain ⟨c, more, hcons, hblank⟩ : ∃ c more, s.run = c :: more ∧ ¬ isBlank c := by
    rcases h.cases_digit with ⟨hrun, hdigits, _⟩ | ⟨c, hrun, hblank, _⟩
    · obtain ⟨c, more, hcons⟩ := List.exists_cons_of_ne_nil hrun
      exact ⟨c, more, hcons, not_isBlank_of_isDigit (hdigits c (by simp [hcons]))⟩
    · exact ⟨c, [], hrun, hblank⟩
  refine ⟨c, more, hcons, hblank, s.text_eq.trans ?_⟩
  rw [hcons, List.append_assoc, List.cons_append]

/-- A character that lies between the two ends of a span is one of its own. -/
theorem split_run (s : Span text) {before behind : List Char} {c : Char}
    (htext : text = before ++ c :: behind) (hstart : s.start ≤ byteLength before)
    (hstop : byteLength before < s.stop) :
    ∃ front back, s.run = front ++ c :: back ∧ before = s.before ++ front ∧
      behind = back ++ s.behind := by
  have heq : s.before ++ (s.run ++ s.behind) = before ++ c :: behind := by
    rw [← List.append_assoc]
    exact s.text_eq.symm.trans htext
  rw [start] at hstart
  rw [stop, byteLength_append] at hstop
  -- the span begins at the character or before it
  obtain ⟨front, rfl, hfront⟩ : ∃ front, before = s.before ++ front ∧
      s.run ++ s.behind = front ++ c :: behind := by
    rcases List.append_eq_append_iff.1 heq with ⟨front, hbefore, hrest⟩ | ⟨gap, hbefore, hrest⟩
    · exact ⟨front, hbefore, hrest⟩
    · have hgap : byteLength gap = 0 := by
        rw [hbefore, byteLength_append] at hstart
        omega
      rw [byteLength_eq_zero.1 hgap] at hbefore hrest
      exact ⟨[], by simpa using hbefore.symm, by simpa using hrest.symm⟩
  -- and it ends behind the character
  rcases List.append_eq_append_iff.1 hfront with ⟨gap, hgap, _⟩ | ⟨back, hrun, hback⟩
  · rw [hgap] at hstop
    simp only [byteLength_append] at hstop
    omega
  · cases back with
    | nil =>
      rw [hrun] at hstop
      simp only [byteLength_append, byteLength_nil] at hstop
      omega
    | cons c' back =>
      obtain ⟨rfl, hbehind⟩ := List.cons.inj hback
      exact ⟨front, back, hrun, rfl, hbehind⟩

/-- A run of digits that does not go on is what can be taken from the text. -/
theorem run_eq_takeWhile {run behind : List Char} (hdigits : ∀ c ∈ run, c.isDigit)
    (hbehind : ∀ c ∈ behind.head?, ¬ c.isDigit) :
    run = (run ++ behind).takeWhile Char.isDigit := by
  rw [List.takeWhile_append_of_pos hdigits]
  cases behind with
  | nil => simp
  | cons c behind =>
    have hc : ¬ c.isDigit := hbehind c rfl
    simp [hc]

/-- What is left then is what stands behind it. -/
theorem behind_eq_dropWhile {run behind : List Char} (hdigits : ∀ c ∈ run, c.isDigit)
    (hbehind : ∀ c ∈ behind.head?, ¬ c.isDigit) :
    behind = (run ++ behind).dropWhile Char.isDigit := by
  have hall := List.takeWhile_append_dropWhile (p := Char.isDigit) (l := run ++ behind)
  rw [← run_eq_takeWhile hdigits hbehind] at hall
  exact (List.append_cancel_left hall).symm

/-- **A piece is settled by a character of it.**  If a span that reads begins inside another one,
    the two are the same and have the same reading. -/
theorem Reads.unique {s s' : Span text} {reading reading' : Reading} (h : s.Reads reading)
    (h' : s'.Reads reading') (hstart : s'.start ≤ s.start) (hstop : s.start < s'.stop) :
    s.before = s'.before ∧ s.run = s'.run ∧ reading = reading' := by
  obtain ⟨c, more, hcons, _, htext⟩ := h.exists_cons
  obtain ⟨front, back, hrun', hbefore, hbehind⟩ := s'.split_run htext hstart hstop
  rcases h.cases_digit with ⟨_, hdigits, hfirst, hlast, rfl⟩ | ⟨d, hrun, _, hd, rfl⟩
  · have hc : c.isDigit := hdigits c (by simp [hcons])
    rcases h'.cases_digit with ⟨_, hdigits', _, hlast', rfl⟩ | ⟨d', hsingle, _, hd', _⟩
    · rcases List.eq_nil_or_concat front with rfl | ⟨front, d, rfl⟩
      · -- both begin here, and take in all the digits there are
        have hrun : s.run = s'.run := by
          rw [run_eq_takeWhile hdigits hlast, run_eq_takeWhile hdigits' hlast', hcons, hrun',
            List.cons_append, hbehind]
          rfl
        exact ⟨by simpa using hbefore, hrun, by rw [hrun]⟩
      · -- a digit of the other span stands in front of this one, which would have to go on with it
        have hd : d.isDigit := hdigits' d (by simp [hrun'])
        exact absurd hd (hfirst d (by simp [hbefore]))
    · have hmem : c ∈ s'.run := by simp [hrun']
      rw [hsingle, List.mem_singleton] at hmem
      exact absurd (hmem ▸ hc) hd'
  · obtain ⟨rfl, rfl⟩ : c = d ∧ more = [] := by simpa [hcons] using hrun
    rcases h'.cases_digit with ⟨_, hdigits', _⟩ | ⟨d', hsingle, _, _, rfl⟩
    · exact absurd (hdigits' c (by simp [hrun'])) hd
    · obtain ⟨rfl, rfl, rfl⟩ : front = [] ∧ c = d' ∧ back = [] := by
        rw [hrun'] at hsingle
        simpa [List.append_eq_singleton_iff] using hsingle
      exact ⟨by simpa using hbefore, by rw [hcons, hrun']; rfl, rfl⟩

end Span

/-- Of two cuts, each has the pieces of the other. -/
theorem IsCut.subset {text : List Char} {pieces pieces' : List Lexeme} (h : IsCut text pieces)
    (h' : IsCut text pieces') {piece : Lexeme} (hmem : piece ∈ pieces) : piece ∈ pieces' := by
  obtain ⟨s, hstart, hstop, hreads⟩ := h.spans piece hmem
  obtain ⟨c, more, hcons, hblank, htext⟩ := hreads.exists_cons
  -- the first character of the piece is not blank, so that it lies in a piece of the other cut
  obtain ⟨piece', hmem', hbegins, hends⟩ := (h'.lossless _ _ _ htext).resolve_left hblank
  obtain ⟨s', hstart', hstop', hreads'⟩ := h'.spans piece' hmem'
  obtain ⟨hbefore, hrun, hreading⟩ := hreads.unique hreads'
    (by rw [hstart']; exact hbegins) (by rw [hstop']; exact hends)
  have hsame : piece = piece' := by
    obtain ⟨start, stop, reading⟩ := piece
    obtain ⟨start', stop', reading'⟩ := piece'
    simp only at hstart hstop hstart' hstop' hreading
    rw [← hstart, ← hstop, ← hstart', ← hstop', hreading]
    simp only [Span.start, Span.stop, hbefore, hrun]
  exact hsame ▸ hmem'

/-- **One cut at most.** -/
theorem IsCut.unique {text : List Char} {pieces pieces' : List Lexeme} (h : IsCut text pieces)
    (h' : IsCut text pieces') : pieces = pieces' := by
  let precedes : Lexeme → Lexeme → Prop := fun piece later =>
    piece.start < later.start ∧ piece.stop ≤ later.start
  have hirrefl : Std.Irrefl precedes := ⟨fun piece hlt => Nat.lt_irrefl _ hlt.1⟩
  have hantisymm : Std.Antisymm precedes :=
    ⟨fun piece later hlt hgt => absurd hgt.1 (Nat.lt_asymm hlt.1)⟩
  exact List.Pairwise.eq_of_mem_iff (r := precedes) h.ordered h'.ordered fun piece =>
    ⟨h.subset h', h'.subset h⟩

/-! ## The scan gives a cut -/

namespace Lexeme

/-- In front of the characters to come, no digits have been left that go on with them. -/
def Fresh (before rest : List Char) : Prop :=
  ∀ c ∈ before.getLast?, ∀ d ∈ rest.head?, d.isDigit → ¬ c.isDigit

/-- Pieces are not empty and do not begin before the scan does. -/
theorem bounds_scan {offset : Nat} {rest : List Char} :
    ∀ piece ∈ scan offset rest, offset ≤ piece.start ∧ piece.start < piece.stop := by
  fun_induction scan offset rest with
  | case1 => simp
  | case2 offset c rest hblank ih =>
    intro piece hmem
    have hbounds := ih piece hmem
    omega
  | case3 offset c rest hblank hdigit run stop ih =>
    have hwidth : 0 < c.utf8Size := c.utf8Size_pos
    have hstop : offset < stop := by
      simp only [stop, run, byteLength_cons]
      omega
    intro piece hmem
    rcases List.mem_cons.1 hmem with rfl | hmem
    · exact ⟨Nat.le_refl _, hstop⟩
    · have hbounds := ih piece hmem
      omega
  | case4 offset c rest hblank hdigit stop ih =>
    have hwidth : 0 < c.utf8Size := c.utf8Size_pos
    have hstop : offset < stop := by omega
    intro piece hmem
    rcases List.mem_cons.1 hmem with rfl | hmem
    · exact ⟨Nat.le_refl _, hstop⟩
    · have hbounds := ih piece hmem
      omega

/-- Pieces come in order. -/
theorem ordered_scan {offset : Nat} {rest : List Char} :
    (scan offset rest).Pairwise fun piece later =>
      piece.start < later.start ∧ piece.stop ≤ later.start := by
  fun_induction scan offset rest with
  | case1 => exact .nil
  | case2 offset c rest hblank ih => exact ih
  | case3 offset c rest hblank hdigit run stop ih =>
    refine List.pairwise_cons.2 ⟨fun later hlater => ?_, ih⟩
    have hbounds := bounds_scan later hlater
    have hwidth : 0 < c.utf8Size := c.utf8Size_pos
    simp only [stop, run, byteLength_cons] at hbounds ⊢
    omega
  | case4 offset c rest hblank hdigit stop ih =>
    refine List.pairwise_cons.2 ⟨fun later hlater => ?_, ih⟩
    have hbounds := bounds_scan later hlater
    have hwidth : 0 < c.utf8Size := c.utf8Size_pos
    simp only [stop] at hbounds ⊢
    omega

/-- A piece found behind another one has been found. -/
theorem exists_mem_cons {pieces : List Lexeme} {P : Lexeme → Prop} (piece : Lexeme)
    (h : ∃ later ∈ pieces, P later) : ∃ later ∈ piece :: pieces, P later := by
  obtain ⟨later, hmem, hlater⟩ := h
  exact ⟨later, List.mem_cons_of_mem _ hmem, hlater⟩

/-- What the scan does not make a piece of is blank. -/
theorem lossless_scan (offset : Nat) (rest : List Char) :
    ∀ before c behind, rest = before ++ c :: behind →
      isBlank c ∨ ∃ piece ∈ scan offset rest,
        piece.start ≤ offset + byteLength before ∧ offset + byteLength before < piece.stop := by
  fun_induction scan offset rest with
  | case1 =>
    intro before c behind h
    simp at h
  | case2 offset first rest hblank ih =>
    intro before c behind h
    rcases List.cons_eq_append_iff.1 h with ⟨rfl, hcons⟩ | ⟨before, rfl, hrest⟩
    · cases hcons
      exact .inl hblank
    · have hlater := ih before c behind hrest
      rwa [Nat.add_assoc] at hlater
  | case3 offset first rest hblank hdigit run stop ih =>
    intro before c behind h
    have hsplit : run ++ rest.dropWhile Char.isDigit = before ++ c :: behind := by
      rw [← h]
      simp only [run, List.cons_append, List.takeWhile_append_dropWhile]
    rcases List.append_eq_append_iff.1 hsplit with ⟨inside, rfl, hdrop⟩ | ⟨more, hrun, hmore⟩
    · -- behind the run
      have hlater := ih inside c behind hdrop
      simp only [byteLength_append, stop, Nat.add_assoc] at hlater ⊢
      exact hlater.imp id (exists_mem_cons _)
    · cases more with
      | nil =>
        -- right behind the run
        have hlater := ih [] c behind hmore.symm
        rw [List.append_nil] at hrun
        simp only [byteLength_nil, stop, Nat.add_zero, hrun] at hlater ⊢
        exact hlater.imp id (exists_mem_cons _)
      | cons d more =>
        have hwidth : 0 < d.utf8Size := d.utf8Size_pos
        refine .inr ⟨_, List.mem_cons_self, Nat.le_add_right _ _, ?_⟩
        simp only [stop, hrun, byteLength_append, byteLength_cons]
        omega
  | case4 offset first rest hblank hdigit stop ih =>
    intro before c behind h
    rcases List.cons_eq_append_iff.1 h with ⟨rfl, hcons⟩ | ⟨before, rfl, hrest⟩
    · have hwidth : 0 < first.utf8Size := first.utf8Size_pos
      refine .inr ⟨_, List.mem_cons_self, Nat.le_add_right _ _, ?_⟩
      simp only [byteLength_nil, stop]
      omega
    · have hlater := ih before c behind hrest
      simp only [stop, Nat.add_assoc] at hlater
      exact hlater.imp id (exists_mem_cons _)

/-- Each piece is a span of the whole text, of which the scan has only the rest before it. -/
theorem spans_scan {offset : Nat} {rest : List Char} :
    ∀ (text done : List Char), text = done ++ rest → offset = byteLength done → Fresh done rest →
      ∀ piece ∈ scan offset rest, ∃ s : Span text, s.start = piece.start ∧ s.stop = piece.stop ∧
        s.Reads piece.reading := by
  fun_induction scan offset rest with
  | case1 =>
    intro text done _ _ _ piece hmem
    cases hmem
  | case2 offset c rest hblank ih =>
    intro text done htext hoffset hfresh
    refine ih text (done ++ [c]) (by simp [htext]) (by simp [hoffset]) ?_
    intro c' hc' _ _ _ hdigit
    obtain rfl : c = c' := by simpa using hc'
    exact not_isBlank_of_isDigit hdigit hblank
  | case3 offset c rest hblank hdigit run stop ih =>
    intro text done htext hoffset hfresh piece hmem
    have hrun : ∀ d ∈ run, d.isDigit := isDigit_of_mem_run hdigit
    have hnext := not_isDigit_behind_run rest
    have hwhole : text = done ++ run ++ rest.dropWhile Char.isDigit := by
      simp only [htext, run, List.append_assoc, List.cons_append, List.takeWhile_append_dropWhile]
    rcases List.mem_cons.1 hmem with rfl | hmem
    · refine ⟨⟨done, run, _, hwhole⟩, hoffset.symm, ?_, ?_⟩
      · simp only [Span.stop, stop, byteLength_append, hoffset]
      · exact .integer (by simp [run]) hrun (fun d hd => hfresh d hd c rfl hdigit) hnext
    · refine ih text _ hwhole (by simp only [stop, byteLength_append, hoffset]) ?_ piece hmem
      intro _ _ d hd hdigit
      exact absurd hdigit (hnext d hd)
  | case4 offset c rest hblank hdigit stop ih =>
    intro text done htext hoffset hfresh piece hmem
    have hwhole : text = done ++ [c] ++ rest := by simp [htext]
    rcases List.mem_cons.1 hmem with rfl | hmem
    · refine ⟨⟨done, [c], rest, hwhole⟩, hoffset.symm, ?_, Span.reads_readChar rfl hblank hdigit⟩
      simp [Span.stop, stop, hoffset]
    · refine ih text _ hwhole (by simp [stop, hoffset]) ?_ piece hmem
      intro c' hc' _ _ _ hdigit'
      obtain rfl : c = c' := by simpa using hc'
      exact hdigit hdigit'

end Lexeme

/-- **The scan gives a cut.** -/
theorem isCut_scan (text : List Char) : IsCut text (Lexeme.scan 0 text) where
  spans := Lexeme.spans_scan text [] rfl rfl fun c hc => by cases hc
  ordered := Lexeme.ordered_scan
  lossless := by
    intro before c behind h
    have hlossless := Lexeme.lossless_scan 0 text before c behind h
    simpa only [Nat.zero_add] using hlossless

/-! ## The cursor -/

/-- What a cursor answers when it comes to a piece. -/
def Lexeme.answer (piece : Lexeme) : Except Fault Token :=
  match piece.reading with
  | .token token => .ok token
  | .stray c => .error ⟨.strayCharacter c, piece.start⟩

/-- Every step uses up one piece. -/
theorem Cursor.pending_skip (cursor : Cursor) (n : Nat) :
    (cursor.skip n).pending = cursor.pending.drop n := by
  induction n generalizing cursor with
  | zero => rfl
  | succ n ih => rw [skip, ih, pending_next, List.drop_tail]

/-- No step changes the length of the text. -/
theorem Cursor.length_skip (cursor : Cursor) (n : Nat) :
    (cursor.skip n).length = cursor.length := by
  induction n generalizing cursor with
  | zero => rfl
  | succ n ih => rw [skip, ih, length_next]

/-- **The pieces are handed out one by one**, and then the end of the input again and again. -/
theorem Cursor.next_skip (cursor : Cursor) (n : Nat) :
    match cursor.pending[n]? with
    | some piece => (cursor.skip n).next.1 = piece.answer ∧
      (cursor.skip n).next.2.position = piece.start
    | none => (cursor.skip n).next.1 = .ok .endOfInput ∧
      (cursor.skip n).next.2.position = cursor.length := by
  have hpending := cursor.pending_skip n
  rcases hpiece : cursor.pending[n]? with _ | piece
  · rw [List.drop_eq_nil_of_le (List.getElem?_eq_none_iff.1 hpiece)] at hpending
    rw [next_of_nil hpending, length_skip]
    exact ⟨rfl, rfl⟩
  · obtain ⟨hlt, hget⟩ := List.getElem?_eq_some_iff.1 hpiece
    rw [List.drop_eq_getElem_cons hlt, hget] at hpending
    rw [next_of_cons hpending]
    exact ⟨rfl, rfl⟩

/-- **Cutting a text up is exact and lossless.**  There is one list of pieces that are, in order and
    without overlap, all runs of digits, symbols and strays of the text, with nothing but blanks
    around them; and a cursor that is asked again and again, whatever it has answered, hands out
    these, each with its place, and from then on the end of the input, at the end of the text. -/
theorem existsUnique_cut_handed_out (text : String) :
    ∃ pieces, IsCut text.toList pieces ∧
      (∀ pieces', IsCut text.toList pieces' → pieces' = pieces) ∧
      ∀ n, let (answer, cursor) := ((Cursor.ofText text).skip n).next
        match pieces[n]? with
        | some piece => answer = piece.answer ∧ cursor.position = piece.start
        | none => answer = .ok .endOfInput ∧ cursor.position = byteLength text.toList :=
  ⟨Lexeme.scan 0 text.toList, isCut_scan _, fun _ h => h.unique (isCut_scan _),
    fun n => (Cursor.ofText text).next_skip n⟩

example : Lexeme.scan 0 ['é', ' ', '1', '2', '+'] =
    [⟨0, 2, .stray 'é'⟩, ⟨3, 5, .token (.integer (.exact 12))⟩,
      ⟨5, 6, .token (.operator .add)⟩] := by
  decide +kernel

end Calculator
