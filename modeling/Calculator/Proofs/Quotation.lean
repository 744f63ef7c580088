/-
  What is written can be read again: numbers and quoted text.

  Problem: messages and records put numbers and pieces of the input between fixed words.  Show that a
  reader finds where each of them ends, and what it was.

  1. **Marks** — a part that does not hold a character ends where that character first stands
     (`eq_of_append_mark`).  Numbers hold neither blanks nor colons nor braces, and different numbers
     are written differently, in decimal and in hexadecimal.

  2. **Specification** — `Escaped`: a character stands in quoted text as itself, as a letter behind a
     backslash, or as its code point behind a backslash, and which of these it is depends on the
     character and the mark alone.  `Quoted` says that characters are written like this one by one,
     up to the closing mark.

  3. **The crux (`Escaped.cancel`)** — the forms differ in their first two characters, and the longest
     of them ends at its brace.  So no character is written as the beginning of another one, and none
     begins with the mark.

  4. **Result (`Quoted.unique`)** — a text that is quoted can be made out, and what stands behind it.
-/
import Calculator.Text.Digits
import Calculator.Text.Quoted

namespace Calculator.Text

/-! ## Numbers -/

/-- Two texts that go on behind the first mark in them are the same up to there, and behind it. -/
theorem eq_of_append_mark {mark : Char} {front front' back back' : List Char} (h : mark ∉ front)
    (h' : mark ∉ front') (heq : front ++ mark :: back = front' ++ mark :: back') :
    front = front' ∧ back = back' := by
  rcases List.append_eq_append_iff.1 heq with ⟨gap, rfl, hgap⟩ | ⟨gap, rfl, hgap⟩
  · rcases List.cons_eq_append_iff.1 hgap with ⟨rfl, hback⟩ | ⟨gap, rfl, _⟩
    · exact ⟨(List.append_nil front).symm, (List.cons.inj hback).2.symm⟩
    · exact absurd (List.mem_append_right front List.mem_cons_self) h'
  · rcases List.cons_eq_append_iff.1 hgap with ⟨rfl, hback⟩ | ⟨gap, rfl, _⟩
    · exact ⟨List.append_nil front', (List.cons.inj hback).2⟩
    · exact absurd (List.mem_append_right front' List.mem_cons_self) h

/-- Numbers in decimal are different if the numbers are. -/
theorem digits_injective {n m : Nat} (h : digits n = digits m) : n = m := by
  calc n = ofDigits (digits n) := (ofDigits_digits n).symm
    _ = ofDigits (digits m) := congrArg ofDigits h
    _ = m := ofDigits_digits m

/-- Numbers are put into messages in decimal. -/
theorem toList_toString (n : Nat) : (toString n).toList = digits n := by
  rw [Nat.toString_eq_ofList_toDigits, String.toList_ofList, digits]

/-- No number in decimal holds a character that is no digit. -/
theorem not_mem_digits {c : Char} (h : c.isDigit = false) (n : Nat) : c ∉ digits n := by
  intro hmem
  have hdigit := Nat.isDigit_of_mem_toDigits (by decide) (by decide) hmem
  rw [hdigit] at h
  cases h

/-- The hexadecimal digits are different. -/
theorem digitChar_injective : ∀ n < 16, ∀ m < 16, Nat.digitChar n = Nat.digitChar m → n = m := by
  decide

/-- None of them is a brace. -/
theorem digitChar_ne_brace : ∀ n < 16, Nat.digitChar n ≠ '\x7d' := by
  decide

/-- No number in hexadecimal holds a brace, by induction on the digits, the last one first. -/
theorem brace_not_mem_toDigits (n : Nat) : '\x7d' ∉ Nat.toDigits 16 n := by
  induction n using Nat.strongRecOn with
  | ind n ih =>
    rcases Nat.lt_or_ge n 16 with hn | hn
    · rw [Nat.toDigits_of_lt_base hn, List.mem_singleton]
      exact (digitChar_ne_brace n hn).symm
    · rw [Nat.toDigits_of_base_le (by decide) hn, List.mem_append, List.mem_singleton]
      rintro (hmem | hlast)
      · exact ih (n / 16) (by omega) hmem
      · exact digitChar_ne_brace _ (Nat.mod_lt _ (by decide)) hlast.symm

/-- Numbers in hexadecimal are different if the numbers are, by the same induction. -/
theorem toDigits_injective {n m : Nat} (h : Nat.toDigits 16 n = Nat.toDigits 16 m) : n = m := by
  -- more than one digit is not one digit
  have hmore : ∀ {k : Nat} {c d : Char}, Nat.toDigits 16 k ++ [c] ≠ [d] := by
    intro k c d heq
    have hnil : Nat.toDigits 16 k = [] := (List.append_eq_singleton_iff.1 heq).elim
      (fun hleft => hleft.1) fun hright => absurd hright.2 (List.cons_ne_nil _ _)
    exact Nat.toDigits_ne_nil hnil
  induction n using Nat.strongRecOn generalizing m with
  | ind n ih =>
    rcases Nat.lt_or_ge n 16 with hn | hn
    · rcases Nat.lt_or_ge m 16 with hm | hm
      · rw [Nat.toDigits_of_lt_base hn, Nat.toDigits_of_lt_base hm] at h
        exact digitChar_injective n hn m hm (List.cons.inj h).1
      · rw [Nat.toDigits_of_lt_base hn, Nat.toDigits_of_base_le (by decide) hm] at h
        exact absurd h.symm hmore
    · rcases Nat.lt_or_ge m 16 with hm | hm
      · rw [Nat.toDigits_of_base_le (by decide) hn, Nat.toDigits_of_lt_base hm] at h
        exact absurd h hmore
      · rw [Nat.toDigits_of_base_le (by decide) hn, Nat.toDigits_of_base_le (by decide) hm] at h
        obtain ⟨hfront, hlast⟩ := List.append_inj' h rfl
        have hquotient : n / 16 = m / 16 := ih (n / 16) (by omega) hfront
        have hdigit : n % 16 = m % 16 := digitChar_injective _ (Nat.mod_lt _ (by decide)) _
          (Nat.mod_lt _ (by decide)) (List.cons.inj hlast).1
        omega

/-! ## Quoted characters -/

/-- The characters that have a letter of their own behind the backslash, or that stand there as
    themselves. -/
def letters (mark : Char) : List (Char × Char) :=
  [('\x00', '0'), ('\t', 't'), ('\n', 'n'), ('\r', 'r'), (mark, mark), ('\\', '\\')]

/-- How a character stands in a text that is quoted by `mark`. -/
inductive Escaped (mark c : Char) : List Char → Prop
  | plain (hletter : ∀ x, (c, x) ∉ letters mark) (hpicture : isUnprintable c = false) :
    Escaped mark c [c]
  | letter {x : Char} (h : (c, x) ∈ letters mark) : Escaped mark c ['\\', x]
  | codePoint (hletter : ∀ x, (c, x) ∉ letters mark) (hpicture : isUnprintable c = true) :
    Escaped mark c (codePointEscape c.toNat)

/-- The two marks that are in use. -/
def IsMark (mark : Char) : Prop := mark = '\'' ∨ mark = '"'

variable {mark c c' : Char} {xs ys cs cs' rest rest' : List Char}

/-- Characters are written like this. -/
theorem escaped_escape (mark c : Char) : Escaped mark c (escape mark c) := by
  rw [escape]
  split
  · next h => exact .letter (by simp [h, letters])
  split
  · next h => exact .letter (by simp [h, letters])
  split
  · next h => exact .letter (by simp [h, letters])
  split
  · next h => exact .letter (by simp [h, letters])
  split
  · next h => rcases h with rfl | rfl <;> exact .letter (by simp [letters])
  next hnul htab hfeed hreturn hself =>
  have hletter : ∀ x, (c, x) ∉ letters mark := by
    intro x hmem
    simp only [letters, List.mem_cons, Prod.mk.injEq, List.not_mem_nil, or_false] at hmem
    grind
  split
  · next h => exact .codePoint hletter h
  · next h => exact .plain hletter (Bool.eq_false_iff.2 h)

/-- Behind the backslash each of these characters stands by itself, and none as the letter that
    announces a code point. -/
theorem eq_of_letter (hmark : IsMark mark) {x : Char} (h : (c, x) ∈ letters mark) :
    x ≠ 'u' ∧ ∀ c', (c', x) ∈ letters mark → c = c' := by
  have htable : ∀ p ∈ letters mark, p.2 ≠ 'u' ∧ ∀ q ∈ letters mark, p.2 = q.2 → p.1 = q.1 := by
    rcases hmark with rfl | rfl <;> decide
  obtain ⟨hne, hsame⟩ := htable _ h
  exact ⟨hne, fun c' h' => hsame _ h' rfl⟩

/-- A character that stands as itself is neither the mark nor a backslash. -/
theorem ne_of_forall_not_mem_letters (h : ∀ x, (c, x) ∉ letters mark) : c ≠ mark ∧ c ≠ '\\' := by
  constructor
  · rintro rfl
    exact h c (by simp [letters])
  · rintro rfl
    exact h '\\' (by simp [letters])

/-- **No character is written as the beginning of another one.** -/
theorem Escaped.cancel (hmark : IsMark mark) (h : Escaped mark c xs) (h' : Escaped mark c' ys)
    (heq : xs ++ rest = ys ++ rest') : c = c' ∧ rest = rest' := by
  -- a code point, its brace and what stands behind it
  have hcode : ∀ n behind, codePointEscape n ++ behind =
      '\\' :: 'u' :: '\x7b' :: (Nat.toDigits 16 n ++ '\x7d' :: behind) := by
    intro n behind
    simp only [codePointEscape, List.cons_append, List.nil_append, List.append_assoc]
  cases h with
  | plain hletter =>
    have hbackslash := (ne_of_forall_not_mem_letters hletter).2
    cases h' with
    | plain => exact List.cons.inj heq
    | letter => exact absurd (List.cons.inj heq).1 hbackslash
    | codePoint =>
      rw [hcode] at heq
      exact absurd (List.cons.inj heq).1 hbackslash
  | letter hx =>
    obtain ⟨hu, hsame⟩ := eq_of_letter hmark hx
    cases h' with
    | plain hletter' =>
      exact absurd (List.cons.inj heq).1.symm (ne_of_forall_not_mem_letters hletter').2
    | letter hx' =>
      obtain ⟨rfl, hrest⟩ := List.cons.inj (List.cons.inj heq).2
      exact ⟨hsame _ hx', hrest⟩
    | codePoint =>
      rw [hcode] at heq
      exact absurd (List.cons.inj (List.cons.inj heq).2).1 hu
  | codePoint =>
    rw [hcode] at heq
    cases h' with
    | plain hletter' =>
      exact absurd (List.cons.inj heq).1.symm (ne_of_forall_not_mem_letters hletter').2
    | letter hx' =>
      exact absurd (List.cons.inj (List.cons.inj heq).2).1.symm (eq_of_letter hmark hx').1
    | codePoint =>
      rw [hcode] at heq
      obtain ⟨hdigits, hrest⟩ := eq_of_append_mark (brace_not_mem_toDigits _)
        (brace_not_mem_toDigits _) (List.cons.inj (List.cons.inj (List.cons.inj heq).2).2).2
      exact ⟨Char.toNat_inj.1 (toDigits_injective hdigits), hrest⟩

/-- No character begins with the mark. -/
theorem Escaped.ne_mark (hmark : IsMark mark) (h : Escaped mark c xs) :
    xs ++ rest ≠ mark :: rest' := by
  have hbackslash : mark ≠ '\\' := by rcases hmark with rfl | rfl <;> decide
  intro heq
  cases h with
  | plain hletter =>
    exact (ne_of_forall_not_mem_letters hletter).1 (List.cons.inj heq).1
  | letter => exact hbackslash (List.cons.inj heq).1.symm
  | codePoint => exact hbackslash (List.cons.inj heq).1.symm

/-! ## Quoted texts -/

/-- How the characters of a text stand behind the opening mark, with the closing one. -/
inductive Quoted (mark : Char) : List Char → List Char → Prop
  | nil : Quoted mark [] [mark]
  | cons {c : Char} {cs xs ys : List Char} (h : Escaped mark c xs) (hrest : Quoted mark cs ys) :
    Quoted mark (c :: cs) (xs ++ ys)

/-- Texts are written like this. -/
theorem exists_quoted (mark : Char) (cs : List Char) :
    ∃ body, (quote mark cs).toList = mark :: body ∧ Quoted mark cs body := by
  refine ⟨_, String.toList_ofList, ?_⟩
  induction cs with
  | nil => exact .nil
  | cons c cs ih =>
    rw [List.flatMap_cons, List.append_assoc]
    exact .cons (escaped_escape mark c) ih

/-- **What is quoted can be made out**, and what stands behind it. -/
theorem Quoted.unique (hmark : IsMark mark) (h : Quoted mark cs xs) (h' : Quoted mark cs' ys)
    (heq : xs ++ rest = ys ++ rest') : cs = cs' ∧ rest = rest' := by
  induction h generalizing cs' ys with
  | nil =>
    cases h' with
    | nil => exact ⟨rfl, (List.cons.inj heq).2⟩
    | cons hc _ =>
      rw [List.append_assoc] at heq
      exact absurd heq.symm (hc.ne_mark hmark)
  | cons hc _ ih =>
    rw [List.append_assoc] at heq
    cases h' with
    | nil => exact absurd heq (hc.ne_mark hmark)
    | cons hc' hrest' =>
      rw [List.append_assoc] at heq
      obtain ⟨rfl, hbehind⟩ := hc.cancel hmark hc' heq
      obtain ⟨rfl, hrest⟩ := ih hrest' hbehind
      exact ⟨rfl, hrest⟩

/-- Quoted characters are different if the characters are. -/
theorem quoteChar_injective {c c' : Char} (h : quoteChar c = quoteChar c') : c = c' := by
  obtain ⟨body, hbody, hquoted⟩ := exists_quoted '\'' [c]
  obtain ⟨body', hbody', hquoted'⟩ := exists_quoted '\'' [c']
  have hlists := congrArg String.toList h
  rw [quoteChar, quoteChar, hbody, hbody'] at hlists
  obtain ⟨_, rfl⟩ := List.cons.inj hlists
  have hcharacters := (hquoted.unique (.inl rfl) hquoted' (rfl : body ++ [] = body ++ [])).1
  exact (List.cons.inj hcharacters).1

end Calculator.Text
