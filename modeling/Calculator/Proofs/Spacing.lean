/-
  White space does not count.

  Problem: put blanks between the tokens of a text, or take them away.  Show that nothing comes of
  it but other places, whether the text has a value or a fault.

  1. **Specification** — `Spaced`: blanks are inserted at one place, which is not between two digits.
     Edits may be made one after the other and undone (`Relation.EqvGen Spaced`), so that blanks can
     be inserted, removed and replaced anywhere, as long as no run of digits is split and no two are
     merged.

  2. **Pieces (`reading_scan_of_spaced`)** — both texts fall into pieces with the same readings.

  3. **The crux** — places correspond when they are those of steps with the same number
     (`stepPlaces`), the end being the last.  Then the cursors of both texts agree throughout, and
     evaluations whose cursors agree are in step: a place is passed on to a fault, and nothing else
     is ever done with it.
-/
import Calculator.Proofs.Concatenation
import Calculator.Proofs.Lockstep
import Mathlib.Logic.Relation

namespace Calculator

open Text

/-! ## Specification -/

/-- The second text has blanks where the first one has none.  No digits meet there. -/
inductive Spaced : List Char → List Char → Prop
  | insert (before blanks behind : List Char) (hblanks : ∀ c ∈ blanks, isBlank c)
      (hdigits : Lexeme.Fresh before behind) : Spaced (before ++ behind) (before ++ blanks ++ behind)

/-- Where the steps through a text begin: at its pieces, and at last at its end. -/
def stepPlaces (text : String) : List Nat :=
  (Lexeme.scan 0 text.toList).map Lexeme.start ++ [byteLength text.toList]

/-! ## Pieces -/

/-- Readings do not depend on where a text begins. -/
theorem Lexeme.reading_scan (offset : Nat) (text : List Char) :
    (scan offset text).map reading = (scan 0 text).map reading := by
  have hmove := scan_add offset 0 text
  rw [Nat.add_zero] at hmove
  rw [hmove, List.map_map]
  rfl

/-- Blanks between two tokens leave the readings as they are. -/
theorem reading_scan_of_spaced {text text' : List Char} (h : Spaced text text') :
    (Lexeme.scan 0 text').map Lexeme.reading = (Lexeme.scan 0 text).map Lexeme.reading := by
  obtain ⟨before, blanks, behind, hblanks, hdigits⟩ := h
  have hfresh : Lexeme.Fresh before (blanks ++ behind) := by
    cases blanks with
    | nil => exact hdigits
    | cons c blanks =>
      refine Lexeme.fresh_of_head fun d hd hdigit => ?_
      obtain rfl : c = d := Option.some.inj hd
      exact not_isBlank_of_isDigit hdigit (hblanks c List.mem_cons_self)
  rw [List.append_assoc, Lexeme.scan_append 0 hfresh, Lexeme.scan_append 0 hdigits,
    Lexeme.scan_blanks hblanks, List.map_append, List.map_append,
    Lexeme.reading_scan (0 + byteLength before + byteLength blanks),
    Lexeme.reading_scan (0 + byteLength before)]

/-- However often the blanks are changed. -/
theorem reading_scan_of_eqvGen {text text' : List Char} (h : Relation.EqvGen Spaced text text') :
    (Lexeme.scan 0 text').map Lexeme.reading = (Lexeme.scan 0 text).map Lexeme.reading := by
  induction h with
  | rel _ _ hspaced => exact reading_scan_of_spaced hspaced
  | refl _ => rfl
  | symm _ _ _ ih => exact ih.symm
  | trans _ _ _ _ _ ih ih' => exact ih'.trans ih

/-! ## Evaluations -/

/-- Places of equally numbered steps. -/
def SameStep (text text' : String) (position position' : Nat) : Prop :=
  ∃ n : Nat, (stepPlaces text)[n]? = some position ∧ (stepPlaces text')[n]? = some position'

/-- A piece begins at the place of its step. -/
theorem getElem?_stepPlaces {text : String} {n : Nat} {piece : Lexeme}
    (h : (Lexeme.scan 0 text.toList)[n]? = some piece) :
    (stepPlaces text)[n]? = some piece.start := by
  obtain ⟨hn, _⟩ := List.getElem?_eq_some_iff.1 h
  rw [stepPlaces, List.getElem?_append_left (by rw [List.length_map]; exact hn), List.getElem?_map, h]
  rfl

/-- Behind the last piece comes the end. -/
theorem getElem?_stepPlaces_length (text : String) :
    (stepPlaces text)[(Lexeme.scan 0 text.toList).length]? = some (byteLength text.toList) := by
  rw [stepPlaces, List.getElem?_append_right (by rw [List.length_map]), List.length_map,
    Nat.sub_self]
  rfl

/-- Cursors of texts with the same readings agree, however many steps they take. -/
theorem agree_of_reading_eq {settings : Settings} {text text' : String}
    (h : (Lexeme.scan 0 text'.toList).map Lexeme.reading =
      (Lexeme.scan 0 text.toList).map Lexeme.reading) (n : Nat) :
    (Evaluation.pairing settings text text' (SameStep text text')).Agree n (Cursor.ofText text)
      (Cursor.ofText text') := by
  have hlength : (Lexeme.scan 0 text'.toList).length = (Lexeme.scan 0 text.toList).length := by
    have hmap := congrArg List.length h
    rwa [List.length_map, List.length_map] at hmap
  have hpieces : List.Forall₂ (fun piece piece' : Lexeme =>
      (Evaluation.pairing settings text text' (SameStep text text')).Same piece.placed piece'.placed)
      (Lexeme.scan 0 text.toList) (Lexeme.scan 0 text'.toList) := by
    refine List.forall₂_iff_get.2 ⟨hlength.symm, fun i hi hi' => ⟨⟨i, ?_, ?_⟩, .inl ?_⟩⟩
    · exact getElem?_stepPlaces (List.getElem?_eq_getElem hi)
    · exact getElem?_stepPlaces (List.getElem?_eq_getElem hi')
    · have hsame := congrArg (fun readings => readings[i]?) h
      simp only [List.getElem?_map, List.getElem?_eq_getElem hi, List.getElem?_eq_getElem hi',
        Option.map_some, Option.some.injEq] at hsame
      exact hsame
  have hpending : ∀ text, (Cursor.ofText text).pending = Lexeme.scan 0 text.toList ++ [] :=
    fun _ => (List.append_nil _).symm
  have hagree := Pairing.agree_of_forall₂ (n := n) hpieces (hpending text) (hpending text')
    fun d d' hd hfinish hd' hfinish' => ?_
  · exact hagree.mono (Nat.le_add_left _ _)
  · refine Pairing.agree_of_nil hd hd' ?_ n
    rw [hfinish, hfinish']
    refine ⟨_, getElem?_stepPlaces_length text, ?_⟩
    rw [← hlength]
    exact getElem?_stepPlaces_length text'

/-- **White space between tokens does not count**, for faults no more than for values.  Texts that
    differ in their blanks alone, and in none between two digits, fall into pieces with the same
    readings.  They have the same value, or faults with the same cause at the places of equally
    numbered steps. -/
theorem evaluateWith_respaced (settings : Settings) (text text' : String)
    (h : Relation.EqvGen Spaced text.toList text'.toList) :
    (Lexeme.scan 0 text'.toList).map Lexeme.reading =
        (Lexeme.scan 0 text.toList).map Lexeme.reading ∧
      ((∃ value, evaluateWith settings text = .ok value ∧
          evaluateWith settings text' = .ok value) ∨
        ∃ (cause : Cause) (n position position' : Nat), (stepPlaces text)[n]? = some position ∧
          (stepPlaces text')[n]? = some position' ∧
          evaluateWith settings text = .error ⟨cause, position⟩ ∧
          evaluateWith settings text' = .error ⟨cause, position'⟩) := by
  have hreading := reading_scan_of_eqvGen h
  refine ⟨hreading, ?_⟩
  obtain ⟨_, houtcome⟩ := Evaluation.inStep (agree_of_reading_eq hreading _)
  rcases houtcome with hvalue | ⟨cause, position, position', ⟨n, hn, hn'⟩, hfault, hfault'⟩
  · exact .inl hvalue
  · exact .inr ⟨cause, n, position, position', hn, hn', hfault, hfault'⟩

/-- An ideographic space in front of the operator instead of a blank behind the divisor. -/
theorem division_by_zero_respaced :
    Relation.EqvGen Spaced "1/0 ".toList "1\u3000/0".toList ∧
      ((∃ value, evaluateWith {} "1/0 " = .ok value ∧
          evaluateWith {} "1\u3000/0" = .ok value) ∨
        ∃ (cause : Cause) (n position position' : Nat),
          (stepPlaces "1/0 ")[n]? = some position ∧
          (stepPlaces "1\u3000/0")[n]? = some position' ∧
          evaluateWith {} "1/0 " = .error ⟨cause, position⟩ ∧
          evaluateWith {} "1\u3000/0" = .error ⟨cause, position'⟩) := by
  have hremoved : Spaced "1/0".toList "1/0 ".toList :=
    .insert ['1', '/', '0'] [' '] [] (List.forall_mem_singleton.2 (by decide))
      (Lexeme.fresh_of_head (by simp))
  have hinserted : Spaced "1/0".toList "1\u3000/0".toList :=
    .insert ['1'] ['\u3000'] ['/', '0'] (List.forall_mem_singleton.2 (by decide))
      (Lexeme.fresh_of_head (by simp))
  have h := (Relation.EqvGen.rel _ _ hremoved).symm.trans _ _ _ (.rel _ _ hinserted)
  exact ⟨h, (evaluateWith_respaced {} _ _ h).2⟩

end Calculator
