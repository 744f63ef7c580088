/-
  Rounding an exact quotient.

  Problem: given the quotient `num / den` of two natural numbers, find the number nearest to that
  many units; of two equally near, the one with the even significand.  Every operation on numbers
  and every reading of a decimal ends here, so there is this one rounding and no other.

  1. **Program** — `roundUnits`: the whole part of the quotient has some number of bits; all but
     the leading 53 are given up, so the grid has the step `2 ^ gapExponent`.  `roundDiv` then
     divides by `den` times that step and takes the nearer neighbour.  When at most 53 bits stand
     before the point, the step is one unit, which is what subnormal numbers need as well.

  2. **The crux (`representable_roundUnits`)** — the quotient on the grid is at most `2 ^ 53`, and
     when it is exactly that, the step is doubled and the quotient halved.  So every rounded
     magnitude below `overflowBound` is one of the representable ones, and from `overflowBound` on
     the answer is infinite.
-/
import Calculator.Binary64.Basic

namespace Calculator.Binary64

/-- The quotient rounded to the nearest whole number, halves to the even neighbour. -/
def roundDiv (num den : Nat) : Nat :=
  let quotient := num / den
  let rest := num % den
  if 2 * rest < den ∨ (2 * rest = den ∧ quotient % 2 = 0) then quotient else quotient + 1

/-- The step of the grid around a magnitude, as a power of two: all bits but the leading 53. -/
def gapExponent (whole : Nat) : Nat := whole.log2 - 52

/-- `num / den` units, rounded to 53 significant bits. -/
def roundUnits (num den : Nat) : Nat :=
  let s := gapExponent (num / den)
  roundDiv num (den * Nat.pow 2 s) * Nat.pow 2 s

/-! ## Rounding stays on the grid -/

theorem roundDiv_eq_or (num den : Nat) :
    roundDiv num den = num / den ∨ roundDiv num den = num / den + 1 := by
  simp only [roundDiv]
  split
  · exact .inl rfl
  · exact .inr rfl

/-- On the grid of its own step a whole part has at most 53 bits. -/
theorem div_gap_lt (whole : Nat) : whole / Nat.pow 2 (gapExponent whole) < Nat.pow 2 53 := by
  show whole / 2 ^ gapExponent whole < 2 ^ 53
  rw [Nat.div_lt_iff_lt_mul (Nat.two_pow_pos _), ← Nat.pow_add]
  refine Nat.lt_of_lt_of_le (Nat.lt_log2_self (n := whole)) (Nat.pow_le_pow_right (by decide) ?_)
  simp only [gapExponent]
  omega

/-- A step above one unit is taken only when all 53 bits are there. -/
theorem le_div_gap {whole : Nat} (h : gapExponent whole ≠ 0) :
    Nat.pow 2 52 ≤ whole / Nat.pow 2 (gapExponent whole) := by
  have hlog : whole.log2 = 52 + gapExponent whole := by
    simp only [gapExponent] at h ⊢
    omega
  have hne : whole ≠ 0 := by
    intro h0
    simp [h0, gapExponent] at h
  show 2 ^ 52 ≤ whole / 2 ^ gapExponent whole
  rw [Nat.le_div_iff_mul_le (Nat.two_pow_pos _), ← Nat.pow_add, ← hlog]
  exact Nat.log2_self_le hne

/-- A power of two inside the finite range has an exponent below that of the bound. -/
theorem exponent_lt_of_pow_lt {e : Nat} (h : Nat.pow 2 e < overflowBound) :
    e < overflowExponent := by
  unfold overflowBound at h
  rw [Nat.pow_eq, Nat.pow_eq] at h
  exact (Nat.pow_lt_pow_iff_right (by decide)).1 h

/-- Rounded magnitudes are representable, up to the bound of the finite range. -/
theorem representable_roundUnits {num den : Nat} (h : roundUnits num den < overflowBound) :
    Representable (roundUnits num den) := by
  have hdiv : num / (den * 2 ^ gapExponent (num / den))
      = num / den / 2 ^ gapExponent (num / den) := (Nat.div_div_eq_div_mul ..).symm
  have hlt : num / den / 2 ^ gapExponent (num / den) < 2 ^ 53 := div_gap_lt (num / den)
  have hge : gapExponent (num / den) ≠ 0 → 2 ^ 52 ≤ num / den / 2 ^ gapExponent (num / den) :=
    le_div_gap
  have hor := roundDiv_eq_or num (den * 2 ^ gapExponent (num / den))
  rw [hdiv] at hor
  show Representable
    (roundDiv num (den * 2 ^ gapExponent (num / den)) * 2 ^ gapExponent (num / den))
  have h : roundDiv num (den * 2 ^ gapExponent (num / den)) * 2 ^ gapExponent (num / den) <
      overflowBound := h
  generalize gapExponent (num / den) = s at h hlt hge hor ⊢
  generalize roundDiv num (den * 2 ^ s) = k at h hor ⊢
  -- a step too large would push the magnitude past the bound
  have hstep : s = 0 ∨ s ≤ 2045 := by
    rcases Nat.eq_zero_or_pos s with h0 | hpos
    · exact .inl h0
    · right
      have hk : 2 ^ 52 ≤ k := by
        have := hge (by omega)
        omega
      have hpow : 2 ^ (52 + s) < overflowBound := by
        rw [Nat.pow_add]
        exact Nat.lt_of_le_of_lt (Nat.mul_le_mul_right _ hk) h
      have : 52 + s < 2098 := exponent_lt_of_pow_lt hpow
      omega
  rcases Nat.lt_or_ge k (2 ^ 53) with hk | hk
  · exact ⟨k, s, hk, by omega, rfl⟩
  · -- the quotient was rounded up to a power of two, so the step doubles
    have hk53 : k = 2 ^ 53 := by omega
    subst hk53
    have hdouble : 2 ^ 53 * 2 ^ s = 2 ^ 52 * 2 ^ (s + 1) := by
      rw [← Nat.pow_add, ← Nat.pow_add]
      congr 1
      omega
    refine ⟨2 ^ 52, s + 1, by decide, ?_, hdouble⟩
    have hpow : 2 ^ (53 + s) < overflowBound := by
      rw [Nat.pow_add]
      exact h
    have : 53 + s < 2098 := exponent_lt_of_pow_lt hpow
    omega

/-! ## The rounded number -/

/-- The number nearest to `num / den` units, with the sign in front; infinite when the rounded
    magnitude leaves the finite range. -/
def ofQuotient (negative : Bool) (num den : Nat) : Binary64 :=
  if h : roundUnits num den < overflowBound then
    .finite negative (roundUnits num den) (representable_roundUnits h)
  else
    .infinite negative

/-- The number nearest to a natural number. -/
def ofNat (n : Nat) : Binary64 := ofQuotient false (n * one) 1

/-- Rounding an exact quotient never gives `nan`. -/
theorem ofQuotient_ne_nan (negative : Bool) (num den : Nat) :
    ofQuotient negative num den ≠ .nan := by
  simp only [ofQuotient]
  split <;> simp

example : roundDiv 5 2 = 2 ∧ roundDiv 7 2 = 4 ∧ roundDiv 7 3 = 2 := by decide
example : roundUnits (2 ^ 53 + 1) 1 = 2 ^ 53 ∧ roundUnits (2 ^ 53 + 3) 1 = 2 ^ 53 + 4 := by
  decide +kernel

end Calculator.Binary64
