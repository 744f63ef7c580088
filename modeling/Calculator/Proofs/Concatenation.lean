/-
  Texts put together.

  Problem: cut up a text that is written as two texts, one behind the other.

  1. **Pieces (`Lexeme.scan_append`)** — the pieces of both, the second ones moved on.  Only a run of
     digits looks beyond its own end, so this holds wherever no digits meet (`Lexeme.Fresh`).

  2. **The crux (`exists_split_of_piece`)** — a piece splits its text.  What stands up to its end has
     the same pieces by itself, and no digits meet there, since a literal takes in all of them.

  3. **Bytes (`toList_of_extract`)** — texts are compared by their bytes.  A text that has the first
     bytes of another one, up to a place between two of its characters, has those characters.
-/
import Calculator.Proofs.Rendering

namespace Calculator

open Text

/-! ## Pieces -/

namespace Lexeme

/-- Only the last character before a place matters for what goes on there. -/
theorem Fresh.of_append {front before rest : List Char} (h : Fresh (front ++ before) rest) :
    Fresh before rest := by
  intro c hc
  refine h c ?_
  rw [List.getLast?_append, Option.mem_def.1 hc]
  rfl

theorem Fresh.of_cons {c : Char} {before rest : List Char} (h : Fresh (c :: before) rest) :
    Fresh before rest := by
  have happend : Fresh ([c] ++ before) rest := h
  exact happend.of_append

/-- Nothing goes on behind a character that is no digit. -/
theorem fresh_of_last {before rest : List Char} (h : ∀ c ∈ before.getLast?, ¬ c.isDigit) :
    Fresh before rest :=
  fun c hc _ _ _ => h c hc

/-- Nothing but a digit goes on with digits. -/
theorem fresh_of_head {before rest : List Char} (h : ∀ c ∈ rest.head?, ¬ c.isDigit) :
    Fresh before rest :=
  fun _ _ d hd hdigit => absurd hdigit (h d hd)

/-- A run of digits does not go on behind its end, if no digits meet behind all that follows it. -/
theorem Fresh.head_not_digit {run front back : List Char} (hrun : run ≠ [])
    (hdigits : ∀ c ∈ run, c.isDigit) (hfront : ∀ c ∈ front.head?, ¬ c.isDigit)
    (h : Fresh (run ++ front) back) : ∀ c ∈ (front ++ back).head?, ¬ c.isDigit := by
  rcases front with _ | ⟨d, front⟩
  · intro c hc hdigit
    rw [List.append_nil] at h
    exact h (run.getLast hrun) (List.getLast?_eq_getLast_of_ne_nil hrun) c hc hdigit
      (hdigits _ (List.getLast_mem hrun))
  · exact hfront

/-- **Texts are cut up one after the other**, where no digits meet. -/
theorem scan_append (offset : Nat) {front back : List Char} (h : Fresh front back) :
    scan offset (front ++ back) = scan offset front ++ scan (offset + byteLength front) back := by
  fun_induction scan offset front with
  | case1 => rfl
  | case2 offset c rest hblank ih =>
    rw [List.cons_append, scan, if_pos hblank, ih h.of_cons,
      byteLength_cons, Nat.add_assoc]
  | case3 offset c rest hblank hdigit run stop ih =>
    have hwhole : c :: rest = run ++ rest.dropWhile Char.isDigit := by
      simp only [run, List.cons_append, List.takeWhile_append_dropWhile]
    have hdigits : ∀ d ∈ run, d.isDigit := isDigit_of_mem_run hdigit
    have hrest := not_isDigit_behind_run rest
    have hrun : run ≠ [] := List.cons_ne_nil _ _
    rw [hwhole] at h ⊢
    rw [List.append_assoc, scan_integer hrun hdigits (h.head_not_digit hrun hdigits hrest),
      ih h.of_append, byteLength_append, Nat.add_assoc]
    rfl
  | case4 offset c rest hblank hdigit stop ih =>
    have hmore := ih h.of_cons
    simp only [stop] at hmore
    rw [List.cons_append, scan, if_neg hblank, if_neg hdigit]
    simp only [hmore, stop, byteLength_cons, Nat.add_assoc, List.cons_append]

/-- No piece of a text ends behind the text. -/
theorem stop_le_of_mem {text : List Char} {piece : Lexeme} (h : piece ∈ scan 0 text) :
    piece.stop ≤ byteLength text := by
  obtain ⟨s, _, hstop, _⟩ := (isCut_scan text).spans piece h
  have hlength := congrArg byteLength s.text_eq
  rw [byteLength_append] at hlength
  rw [← hstop, Span.stop, hlength]
  exact Nat.le_add_right _ _

/-- **A piece splits its text** into what stands up to its end, which has the same pieces by itself,
    and what stands behind it.  If the piece is no literal it ends in a character that is no digit,
    so that digits may follow. -/
theorem exists_split_of_piece {text : List Char} {n : Nat} {piece : Lexeme}
    (h : (scan 0 text)[n]? = some piece) :
    ∃ front back, text = front ++ back ∧ byteLength front = piece.stop ∧ Fresh front back ∧
      (scan 0 front).length = n + 1 ∧
      ((∃ literal, piece.reading = .token (.integer literal)) ∨
        ∀ c ∈ front.getLast?, ¬ c.isDigit) := by
  have hcut := isCut_scan text
  obtain ⟨s, hstart, hstop, hreads⟩ := hcut.spans piece (List.mem_of_getElem? h)
  have hfresh : Fresh (s.before ++ s.run) s.behind ∧
      ((∃ literal, piece.reading = .token (.integer literal)) ∨
        ∀ c ∈ (s.before ++ s.run).getLast?, ¬ c.isDigit) := by
    have hlast : ∀ {c : Char}, s.run = [c] → ¬ c.isDigit →
        ∀ d ∈ (s.before ++ s.run).getLast?, ¬ d.isDigit := by
      intro c hrun hdigit d hd
      rw [hrun, List.getLast?_append] at hd
      obtain rfl : c = d := Option.some.inj hd
      exact hdigit
    generalize piece.reading = reading at hreads ⊢
    cases hreads with
    | integer _ _ _ hbehind => exact ⟨fresh_of_head hbehind, .inl ⟨_, rfl⟩⟩
    | symbol c token hrun hsymbol =>
      have hdigit := hlast hrun (Token.plain_of_mem_symbols hsymbol).2
      exact ⟨fresh_of_last hdigit, .inr hdigit⟩
    | stray c hrun _ hnot _ => exact ⟨fresh_of_last (hlast hrun hnot), .inr (hlast hrun hnot)⟩
  refine ⟨s.before ++ s.run, s.behind, s.text_eq, hstop, hfresh.1, ?_, hfresh.2⟩
  have hscan : scan 0 text = scan 0 (s.before ++ s.run) ++ scan piece.stop s.behind := by
    have happend := scan_append 0 hfresh.1
    rw [Nat.zero_add, ← s.text_eq] at happend
    rw [happend, ← hstop]
    rfl
  have hle : n < (scan 0 (s.before ++ s.run)).length := by
    by_contra hbehind
    rw [hscan, List.getElem?_append_right (Nat.not_lt.1 hbehind)] at h
    have hbounds := bounds_scan piece (List.mem_of_getElem? h)
    omega
  have hge : ¬ n + 1 < (scan 0 (s.before ++ s.run)).length := by
    intro hmore
    -- the piece that comes next begins where this one has ended, and so does not fit in
    obtain ⟨hn, hpiece⟩ := List.getElem?_eq_some_iff.1 h
    have hmore' : n + 1 < (scan 0 text).length := by
      rw [hscan, List.length_append]
      omega
    have hordered := (List.pairwise_iff_getElem.1 hcut.ordered n (n + 1) hn hmore' (by omega)).2
    rw [hpiece] at hordered
    have hmem : (scan 0 text)[n + 1] ∈ scan 0 (s.before ++ s.run) := by
      simp only [hscan, List.getElem_append_left hmore]
      exact List.getElem_mem _
    have hstop' := stop_le_of_mem hmem
    have hwidth := (bounds_scan _ hmem).2
    have hend : byteLength (s.before ++ s.run) = piece.stop := hstop
    omega
  omega

end Lexeme

/-! ## Bytes -/

/-- A text takes as many bytes as its characters do. -/
theorem Text.size_utf8Encode (cs : List Char) : cs.utf8Encode.size = byteLength cs := by
  induction cs with
  | nil => rfl
  | cons c cs ih =>
    have hwidth : [c].utf8Encode.size = c.utf8Size := by
      rw [List.utf8Encode_singleton, List.size_toByteArray, String.length_utf8EncodeChar]
    rw [List.utf8Encode_cons, ByteArray.size_append, ih, hwidth, byteLength_cons]

/-- What stands behind characters is text, if all of it is. -/
theorem Text.isValidUTF8_of_append {cs : List Char} {bytes : ByteArray}
    (h : (cs.utf8Encode ++ bytes).IsValidUTF8) : bytes.IsValidUTF8 := by
  induction cs with
  | nil => simpa using h
  | cons c cs ih =>
    rw [List.utf8Encode_cons, ByteArray.append_assoc,
      ByteArray.isValidUTF8_utf8Encode_singleton_append_iff] at h
    exact ih h

/-- The bytes of a text are those of its characters, one part behind the other. -/
theorem Text.toUTF8_eq_append {text : String} {front back : List Char}
    (h : text.toList = front ++ back) : text.toUTF8 = front.utf8Encode ++ back.utf8Encode := by
  rw [← List.utf8Encode_append, ← h]
  exact String.utf8Encode_toList.symm

/-- **A text that has the first bytes of another one has its first characters**, if these bytes end
    between two of them. -/
theorem toList_of_extract {text text' : String} {front back : List Char}
    (htext : text.toList = front ++ back)
    (h : text'.toUTF8.extract 0 (byteLength front) = text.toUTF8.extract 0 (byteLength front)) :
    ∃ back', text'.toList = front ++ back' := by
  have hbytes := Text.toUTF8_eq_append htext
  have hfront : text.toUTF8.extract 0 (byteLength front) = front.utf8Encode := by
    rw [hbytes]
    exact ByteArray.extract_append_eq_left (Text.size_utf8Encode front).symm
  have hbytes' : text'.toUTF8 =
      front.utf8Encode ++ text'.toUTF8.extract (byteLength front) text'.toUTF8.size := by
    rw [← hfront, ← h, ByteArray.extract_append_extract, Nat.zero_min,
      ByteArray.extract_zero_max_size]
  have hvalid : (front.utf8Encode ++ text'.toUTF8.extract (byteLength front)
      text'.toUTF8.size).IsValidUTF8 := hbytes' ▸ text'.isValidUTF8
  obtain ⟨back', hback⟩ := Text.isValidUTF8_of_append hvalid
  refine ⟨back', ?_⟩
  rw [hback, ← List.utf8Encode_append] at hbytes'
  have hsame : text' = String.ofList (front ++ back') := String.toByteArray_inj.1 hbytes'
  rw [hsame, String.toList_ofList]

end Calculator
