/-
  Literals round correctly.

  Problem: a literal of up to 64 bits is kept exactly and rounded when it is used; a longer one is
  rounded from its decimal digits when it is read.  Show that nobody can tell: either way the value
  is the number nearest to what the digits say, for runs of any length and any zeros in front.

  1. **Digits** — a run of digits is neither a name nor has it a sign, a point or an exponent
     (`Binary64.decimal?_of_digits`), so what is read of it is a whole number and is rounded like
     one (`Binary64.ofText?_of_digits`).

  2. **The crux (`Literal.toBinary64_ofDigits`)** — both ways to read a literal come to the rounding
     of the same whole number, and rounding is to the nearest (see `Nearest`).

  3. **Factors** — a literal is checked before it is consumed.  It overflows if its value is
     infinite (`Parser.integer_of_not_isFinite`); otherwise only a stray behind it can be at fault
     (`Parser.cause_of_integer`).
-/
import Mathlib.Data.List.TakeWhile
import Calculator.Proofs.Rendering
import Calculator.Proofs.Moments

namespace Calculator

/-! ## Reading digits -/

/-- Digits have no other case. -/
theorem Text.toLower_of_isDigit {c : Char} (h : c.isDigit) : c.toLower = c := by
  have hle : c.val ≤ '9'.val := by
    rw [Char.isDigit, Bool.and_eq_true, decide_eq_true_eq, decide_eq_true_eq] at h
    exact h.2
  have hlt : ¬ c.val ≥ 'A'.val := fun hge => absurd (UInt32.le_trans hge hle) (by decide)
  exact dif_neg fun hcase => hlt hcase.1

/-- No name of a number begins with a digit. -/
theorem Text.ne_name_of_isDigit {c : Char} (h : c.isDigit) (rest : List Char) {name : String}
    (hname : (name.toList.headD 'a').isDigit = false) : String.ofList (c :: rest) ≠ name := by
  rintro rfl
  rw [String.toList_ofList, List.headD_cons, h] at hname
  cases hname

/-- A run of digits is read as a decimal without a point or an exponent. -/
theorem Binary64.decimal?_of_digits {run : List Char} (hrun : run ≠ [])
    (hdigits : ∀ c ∈ run, c.isDigit) : decimal? run = some ⟨Text.ofDigits run, 0⟩ := by
  have htake : run.takeWhile Char.isDigit = run := List.takeWhile_eq_self_iff.2 hdigits
  have hdrop : run.dropWhile Char.isDigit = [] := List.dropWhile_eq_nil_iff.2 hdigits
  have hread : Text.run? run = some (Text.ofDigits run) :=
    if_pos ⟨hrun, List.all_eq_true.2 hdigits⟩
  rw [decimal?, htake, hdrop]
  simp [takeFraction, hread, exponent?]

/-- A whole decimal is rounded like the number that it is. -/
theorem Binary64.ofDecimal_whole (n : Nat) : ofDecimal false ⟨n, 0⟩ = .ofNat n := by
  show ofQuotient false (n * Nat.pow 10 (min 0 decimalReach) * one) 1 = ofQuotient false (n * one) 1
  rw [Nat.zero_min, Nat.pow_eq, Nat.pow_zero, Nat.mul_one]

/-- A digit is no sign. -/
theorem Binary64.takeSign_of_isDigit {c : Char} (h : c.isDigit) (rest : List Char) :
    takeSign (c :: rest) = (false, c :: rest) := by
  rw [takeSign.eq_def]
  split
  · next heq =>
    cases heq
    exact absurd h (by decide)
  · next heq =>
    cases heq
    exact absurd h (by decide)
  · rfl

/-- What begins with a digit, behind a minus sign or without one, is not a name. -/
theorem Binary64.ofText?_of_decimal? {c : Char} {rest : List Char} {d : Decimal} (h : c.isDigit)
    (hdecimal : decimal? (c :: rest) = some d) (negative : Bool) :
    ofText? ((if negative then ['-'] else []) ++ c :: rest) = some (ofDecimal negative d) := by
  have hsign : takeSign ((if negative then ['-'] else []) ++ c :: rest) =
      (negative, c :: rest) := by
    cases negative with
    | false => exact takeSign_of_isDigit h rest
    | true => rfl
  have hname : ∀ name : String, (name.toList.headD 'a').isDigit = false →
      String.ofList ((c :: rest).map Char.toLower) ≠ name := by
    intro name hhead
    rw [List.map_cons, Text.toLower_of_isDigit h]
    exact Text.ne_name_of_isDigit h _ hhead
  rw [ofText?, hsign]
  dsimp only
  rw [if_neg (not_or.2 ⟨hname _ (by decide), hname _ (by decide)⟩), if_neg (hname _ (by decide)),
    hdecimal, Option.map_some]

/-- A run of digits is a numeral, and its value is the number nearest to what it denotes. -/
theorem Binary64.ofText?_of_digits {run : List Char} (hrun : run ≠ [])
    (hdigits : ∀ c ∈ run, c.isDigit) : ofText? run = some (.ofNat (Text.ofDigits run)) := by
  have hdecimal := decimal?_of_digits hrun hdigits
  obtain ⟨c, more, rfl⟩ := List.exists_cons_of_ne_nil hrun
  rw [← ofDecimal_whole]
  exact ofText?_of_decimal? (hdigits c List.mem_cons_self) hdecimal false

/-! ## Literals -/

namespace Literal

variable {run : List Char}

/-- A run of digits that fits into 64 bits is exact. -/
theorem ofDigits_of_lt (hrun : run ≠ []) (hdigits : ∀ c ∈ run, c.isDigit)
    (hlt : Text.ofDigits run < UInt64.size) :
    ofDigits run = .exact (UInt64.ofNatLT (Text.ofDigits run) hlt) := by
  rw [ofDigits, Text.whole?_of_digits hrun hdigits]
  exact dif_pos hlt

/-- A longer one is rounded. -/
theorem ofDigits_of_ge (hrun : run ≠ []) (hdigits : ∀ c ∈ run, c.isDigit)
    (hge : UInt64.size ≤ Text.ofDigits run) :
    ofDigits run = .rounded (.ofNat (Text.ofDigits run)) := by
  rw [ofDigits, Text.whole?_of_digits hrun hdigits]
  dsimp only
  rw [dif_neg (Nat.not_lt.2 hge), ofDigits.ofNumeral, Binary64.ofText?_of_digits hrun hdigits,
    Option.getD_some]

/-- **Either way** the value is the number nearest to what the digits say. -/
theorem toBinary64_ofDigits (hrun : run ≠ []) (hdigits : ∀ c ∈ run, c.isDigit) :
    (ofDigits run).toBinary64 = .ofNat (Text.ofDigits run) := by
  rcases Nat.lt_or_ge (Text.ofDigits run) UInt64.size with hlt | hge
  · rw [ofDigits_of_lt hrun hdigits hlt, toBinary64, UInt64.toNat_ofNatLT]
  · rw [ofDigits_of_ge hrun hdigits hge, toBinary64]

/-- Only the number that they denote counts of the digits. -/
theorem ofDigits_congr {run' : List Char} (hrun : run ≠ []) (hdigits : ∀ c ∈ run, c.isDigit)
    (hrun' : run' ≠ []) (hdigits' : ∀ c ∈ run', c.isDigit)
    (h : Text.ofDigits run = Text.ofDigits run') : ofDigits run = ofDigits run' := by
  rcases Nat.lt_or_ge (Text.ofDigits run) UInt64.size with hlt | hge
  · rw [ofDigits_of_lt hrun hdigits hlt, ofDigits_of_lt hrun' hdigits' (h ▸ hlt)]
    simp only [h]
  · rw [ofDigits_of_ge hrun hdigits hge, ofDigits_of_ge hrun' hdigits' (h ▸ hge), h]

end Literal

namespace Parser

/-- A literal is a factor by itself, however deep it stands. -/
theorem factor_of_integer {p : Parser} {literal : Literal} (h : p.lookahead = .integer literal) :
    factor p = integer literal p := by
  rw [factor]
  cases p.budget with
  | zero => exact factorBy_of_integer h
  | succ budget => exact factorBy_of_integer h

/-- A literal that is infinite is an overflow at its place. -/
theorem integer_of_not_isFinite {p : Parser} {literal : Literal}
    (h : literal.toBinary64.isFinite = false) :
    integer literal p = .error ⟨.overflow, p.position⟩ (p.noted literal) := by
  have hchecked : literal.toBinary64.checked p.position = .error ⟨.overflow, p.position⟩ := by
    rw [Binary64.checked, if_neg (by rw [h]; exact Bool.false_ne_true)]
  rw [integer_eq, hchecked]
  rfl

/-- Any other literal is consumed, which fails only where a stray stands behind it. -/
theorem cause_of_integer {p q : Parser} {literal : Literal} {fault : Fault}
    (hlook : p.lookahead = .integer literal) (hfinite : literal.toBinary64.isFinite = true)
    (h : integer literal p = .error fault q) : ∃ x, fault.cause = .strayCharacter x := by
  have hchecked : literal.toBinary64.checked p.position = .ok literal.toBinary64 :=
    Binary64.checked_eq_ok_iff.2 ⟨hfinite, rfl⟩
  have hkind : (p.noted literal).lookahead.kind = .integer := by
    cases literal <;> exact congrArg Token.kind hlook
  rw [integer_eq, hchecked] at h
  have heat : andThen (eat .integer (p.noted literal))
      (fun _ q => .ok literal.toBinary64 q) = .error fault q := h
  rcases eat_cases .integer (p.noted literal) with ⟨token, _, _, hrun⟩ | ⟨x, _, _, hrun⟩ | ⟨hne, _⟩
  · rw [hrun] at heat
    cases heat
  · rw [hrun] at heat
    cases heat
    exact ⟨x, rfl⟩
  · exact absurd hkind hne

end Parser

/-! ## The value of a run of digits -/

open Binary64

/-- **Literals of any length round correctly, and nothing changes at 2⁶⁴.**  Take a run of digits
    with any number of zeros in front.  It is exact if the number that it denotes fits into 64 bits,
    and rounded otherwise.  Either way its value is the one number that is nearest to what the
    digits say, and infinite exactly from halfway between the greatest finite number and 2¹⁰²⁴ on.
    So a run that denotes more does not have a smaller value, runs that denote the same are the same
    literal, and as a factor a literal overflows, at its place, exactly if its value is infinite. -/
theorem literal_nearest_to_digits {run : List Char} (hrun : run ≠ [])
    (hdigits : ∀ c ∈ run, c.isDigit) :
    (Text.ofDigits run ≤ 2 ^ 64 - 1 ↔
      ∃ value, Literal.ofDigits run = .exact value ∧ value.toNat = Text.ofDigits run) ∧
    (2 ^ 64 - 1 < Text.ofDigits run ↔ ∃ value, Literal.ofDigits run = .rounded value) ∧
    (∀ x, IsNearest false (Text.ofDigits run * one) 1 x ↔
      x = (Literal.ofDigits run).toBinary64) ∧
    ((Literal.ofDigits run).toBinary64 = .infinite false ↔
      2 ^ 1024 - 2 ^ 970 ≤ Text.ofDigits run) ∧
    (∀ run', run' ≠ [] → (∀ c ∈ run', c.isDigit) →
      (Text.ofDigits run ≤ Text.ofDigits run' →
        (Literal.ofDigits run).toBinary64 ≤ (Literal.ofDigits run').toBinary64) ∧
      (Text.ofDigits run = Text.ofDigits run' →
        Literal.ofDigits run = Literal.ofDigits run')) ∧
    ∀ p : Parser, p.lookahead = .integer (Literal.ofDigits run) →
      (2 ^ 1024 - 2 ^ 970 ≤ Text.ofDigits run →
        ∃ q, Parser.factor p = .error ⟨.overflow, p.position⟩ q) ∧
      (Text.ofDigits run < 2 ^ 1024 - 2 ^ 970 →
        ∀ fault q, Parser.factor p = .error fault q → fault.cause ≠ .overflow) := by
  have hvalue := Literal.toBinary64_ofDigits hrun hdigits
  have hnearest := isNearest_ofNat (Text.ofDigits run)
  refine ⟨?_, ?_, fun x => ?_, ?_, fun run' hrun' hdigits' => ⟨fun hle => ?_, fun heq => ?_⟩,
    fun p hlook => ⟨fun hge => ?_, fun hlt fault q hfault => ?_⟩⟩
  · constructor
    · intro hle
      have hlt : Text.ofDigits run < UInt64.size := Nat.lt_of_le_pred (by decide) hle
      exact ⟨_, Literal.ofDigits_of_lt hrun hdigits hlt, UInt64.toNat_ofNatLT⟩
    · rintro ⟨value, _, hvalue⟩
      rw [← hvalue]
      exact Nat.le_pred_of_lt value.toNat_lt
  · constructor
    · intro hlt
      have hge : UInt64.size ≤ Text.ofDigits run := hlt
      exact ⟨_, Literal.ofDigits_of_ge hrun hdigits hge⟩
    · rintro ⟨value, hrounded⟩
      by_contra hle
      have hlt : Text.ofDigits run < UInt64.size :=
        Nat.lt_of_le_pred (by decide) (Nat.le_of_not_lt hle)
      rw [Literal.ofDigits_of_lt hrun hdigits hlt] at hrounded
      cases hrounded
  · rw [hvalue]
    constructor
    · intro hx
      exact hx.unique Nat.one_pos hnearest
    · intro hx
      rw [hx]
      exact hnearest
  · rw [hvalue]
    exact ofNat_eq_infinite_iff _
  · rw [hvalue, Literal.toBinary64_ofDigits hrun' hdigits']
    exact hnearest.mono Nat.one_pos (isNearest_ofNat _) (Nat.mul_le_mul_right one hle)
  · exact Literal.ofDigits_congr hrun hdigits hrun' hdigits' heq
  · have hinfinite : (Literal.ofDigits run).toBinary64.isFinite = false := by
      rw [hvalue, (ofNat_eq_infinite_iff _).2 hge]
      rfl
    rw [Parser.factor_of_integer hlook]
    exact ⟨_, Parser.integer_of_not_isFinite hinfinite⟩
  · have hfinite : (Literal.ofDigits run).toBinary64.isFinite = true := by
      rw [hvalue]
      exact (isFinite_ofNat_iff _).2 hlt
    rw [Parser.factor_of_integer hlook] at hfault
    obtain ⟨x, hcause⟩ := Parser.cause_of_integer hlook hfinite hfault
    rw [hcause]
    exact Cause.noConfusion

/-- Behind two zeros stands a number beyond 64 bits, halfway between two others: the even one, which
    is the greater, is taken. -/
theorem tie_beyond_word_nearest_to_digits :
    "0018446744073709557760".toList ≠ [] ∧
      (∀ c ∈ "0018446744073709557760".toList, c.isDigit) ∧
      (∃ value, Literal.ofDigits "0018446744073709557760".toList = .rounded value) ∧
      Binary64.IsNearest false ((2 ^ 64 + 6144) * Binary64.one) 1 (.ofNat (2 ^ 64 + 8192)) := by
  have hrun : "0018446744073709557760".toList ≠ [] := by decide +kernel
  have hdigits : ∀ c ∈ "0018446744073709557760".toList, c.isDigit :=
    List.all_eq_true.1 (by decide +kernel)
  have hvalue : Text.ofDigits "0018446744073709557760".toList = 2 ^ 64 + 6144 := by decide +kernel
  have hrounded : Binary64.ofNat (2 ^ 64 + 8192) =
      (Literal.ofDigits "0018446744073709557760".toList).toBinary64 := by decide +kernel
  obtain ⟨_, hword, hnearest, _⟩ := literal_nearest_to_digits hrun hdigits
  rw [hvalue] at hword hnearest
  exact ⟨hrun, hdigits, hword.1 (by decide), (hnearest _).2 hrounded⟩

example : (Literal.ofDigits "9007199254740993".toList).toBinary64 = .ofNat (2 ^ 53) := by
  decide +kernel

end Calculator
