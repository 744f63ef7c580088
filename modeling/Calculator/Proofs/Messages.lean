/-
  Answers are single lines.

  Problem: an answer ends its line, and the next prompt begins another one.  Show that nothing in
  an answer can break its line: neither the text of a value, nor the message for a fault, although
  the message may quote a character of the input.

  1. **Specification** — `Text.Unbroken`: neither a line feed nor a carriage return.

  2. **Values** — digits, at most one point, a sign, or a name (see `Numerals`).

  3. **The crux (`unbroken_escape`)** — quoting writes line feeds and carriage returns as letters
     behind a backslash, and leaves alone only characters that are neither.

  4. **Result (`unbroken_message`)** — what is wrong is told in fixed words, numbers and quoted
     characters.
-/
import Calculator.Proofs.Numerals
import Calculator.Shell.Session

namespace Calculator

namespace Text

/-- No line is broken off in the text. -/
def Unbroken (cs : List Char) : Prop := ∀ c ∈ cs, c ≠ '\n' ∧ c ≠ '\r'

-- along the list, and not over all characters
instance (cs : List Char) : Decidable (Unbroken cs) := List.decidableBAll _ cs

@[simp] theorem unbroken_append {xs ys : List Char} :
    Unbroken (xs ++ ys) ↔ Unbroken xs ∧ Unbroken ys :=
  List.forall_mem_append

/-- A line is not broken if the two characters do not stand in it. -/
theorem unbroken_iff {cs : List Char} : Unbroken cs ↔ '\n' ∉ cs ∧ '\r' ∉ cs := by
  constructor
  · intro h
    exact ⟨fun hc => (h _ hc).1 rfl, fun hc => (h _ hc).2 rfl⟩
  · rintro ⟨hline, hreturn⟩ c hc
    exact ⟨fun h => hline (h ▸ hc), fun h => hreturn (h ▸ hc)⟩

/-- Numbers in decimal do not break a line. -/
theorem unbroken_toString (n : Nat) : Unbroken (toString n).toList := by
  rw [toList_toString]
  exact unbroken_iff.2 ⟨not_mem_digits rfl n, not_mem_digits rfl n⟩

/-- Nor do numbers in hexadecimal. -/
theorem unbroken_toDigits (n : Nat) : Unbroken (Nat.toDigits 16 n) := by
  have hdigit : ∀ k < 16, Unbroken [Nat.digitChar k] := by decide
  induction n using Nat.strongRecOn with
  | ind n ih =>
    rw [Nat.toDigits_eq_if (by decide)]
    split
    · next hlt => exact hdigit n hlt
    · next hge =>
      refine unbroken_append.2 ⟨ih _ (by omega), hdigit _ (Nat.mod_lt _ (by decide))⟩

/-- **A character is quoted within a line.** -/
theorem unbroken_escape (mark c : Char) : Unbroken (escape mark c) := by
  rw [escape]
  split
  · decide
  split
  · decide
  split
  · decide
  split
  · decide
  next hfeed hreturn =>
    have hc : Unbroken [c] := by
      intro d hd
      obtain rfl : d = c := by simpa using hd
      exact ⟨hfeed, hreturn⟩
    split
    · exact unbroken_append.2 ⟨(by decide : Unbroken ['\\']), hc⟩
    split
    · rw [codePointEscape]
      exact unbroken_append.2 ⟨unbroken_append.2 ⟨by decide, unbroken_toDigits _⟩, by decide⟩
    · exact hc

/-- So is a text of one character. -/
theorem unbroken_quoteChar (c : Char) : Unbroken (quoteChar c).toList := by
  have hmark : Unbroken ['\''] := by decide
  rw [quoteChar, quote, String.toList_ofList, List.flatMap_singleton]
  exact unbroken_append.2 ⟨hmark, unbroken_append.2 ⟨unbroken_escape _ c, hmark⟩⟩

end Text

open Text

/-- **The text of a value does not break its line.** -/
theorem Binary64.unbroken_text (x : Binary64) : Unbroken x.text.toList := by
  exact unbroken_iff.2
    ⟨x.shown_text.not_mem rfl (by decide), x.shown_text.not_mem rfl (by decide)⟩

/-- The kinds of tokens. -/
def TokenKind.kinds : List TokenKind :=
  [.integer, .operator .add, .operator .sub, .operator .mul, .operator .div, .leftParen, .rightParen,
    .endOfInput]

theorem TokenKind.mem_kinds (kind : TokenKind) : kind ∈ kinds := by
  cases kind with
  | operator op => cases op <;> decide
  | integer => decide
  | leftParen => decide
  | rightParen => decide
  | endOfInput => decide

/-- Nor does what a token is called. -/
theorem TokenKind.unbroken_text (kind : TokenKind) : Unbroken kind.text.toList := by
  have hkinds : ∀ k ∈ kinds, Unbroken k.text.toList := by decide +kernel
  exact hkinds kind kind.mem_kinds

/-! ## Messages, put together from their parts -/

theorem Cause.text_strayCharacter (c : Char) :
    (strayCharacter c).text = "Unknown character " ++ quoteChar c ++ "." := rfl

theorem Cause.text_unexpected (expected found : TokenKind) :
    (unexpected expected found).text =
      "Expected " ++ expected.text ++ ", found " ++ found.text ++ "." := rfl

theorem Cause.text_nestedTooDeep (limit : Nat) :
    (nestedTooDeep limit).text =
      "Parentheses nested deeper than " ++ toString limit ++ " levels." := rfl

theorem Fault.message_eq (fault : Fault) :
    fault.message =
      "Error at position " ++ toString fault.position ++ ": " ++ fault.cause.text := rfl

/-- What is wrong does not break its line. -/
theorem Cause.unbroken_text (cause : Cause) : Unbroken cause.text.toList := by
  cases cause with
  | strayCharacter c =>
    rw [text_strayCharacter]
    simp only [String.toList_append, unbroken_append]
    exact ⟨⟨by decide, unbroken_quoteChar c⟩, by decide⟩
  | unexpected expected found =>
    rw [text_unexpected]
    simp only [String.toList_append, unbroken_append]
    exact ⟨⟨⟨⟨by decide, expected.unbroken_text⟩, by decide⟩, found.unbroken_text⟩, by decide⟩
  | nestedTooDeep limit =>
    rw [text_nestedTooDeep]
    simp only [String.toList_append, unbroken_append]
    exact ⟨⟨by decide, unbroken_toString limit⟩, by decide⟩
  | divisionByZero => decide
  | overflow => decide

/-- **Nor does the message for a fault.** -/
theorem Fault.unbroken_message (fault : Fault) : Unbroken fault.message.toList := by
  rw [message_eq]
  simp only [String.toList_append, unbroken_append]
  exact ⟨⟨⟨by decide, unbroken_toString _⟩, by decide⟩, fault.cause.unbroken_text⟩

/-- **An answer is one line**: the result or the message, and then the end of the line. -/
theorem Shell.answer_eq_line (settings : Settings) (text : String) :
    ∃ line : String, answer settings text = line ++ "\n" ∧ Unbroken line.toList ∧
      (∀ value, evaluateWith settings text = .ok value → line = "Result: " ++ value.text) ∧
      ∀ fault, evaluateWith settings text = .error fault → line = fault.message := by
  rcases houtcome : evaluateWith settings text with fault | value
  · refine ⟨fault.message, ?_, fault.unbroken_message, ?_, ?_⟩
    · rw [answer, houtcome]
      rfl
    · rintro value ⟨⟩
    · rintro fault' ⟨⟩
      rfl
  · refine ⟨"Result: " ++ value.text, ?_, ?_, ?_, ?_⟩
    · rw [answer, houtcome]
      rfl
    · rw [String.toList_append, unbroken_append]
      exact ⟨by decide, value.unbroken_text⟩
    · rintro value' ⟨⟩
      rfl
    · rintro fault ⟨⟩

end Calculator
