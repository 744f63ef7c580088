/-
  Exact results.

  Problem: an operator that is applied gives a number or refuses.  Say which of the two by the result
  that it would have if nothing were rounded, for all operands that are finite.

  1. **Exact numbers** — `Binary64.toRat`: a finite number is a rational one, and `Operator.exact`
     the operator on these.

  2. **Before the check** — `Operator.compute`: what an operator comes to, infinities and `nan`
     included.  Nothing else is checked when it is applied (`Operator.apply_eq`).

  3. **The crux (`isRounded_compute`)** — with finite operands, and a divisor that is not zero, what
     is computed is the exact result, rounded once.  No operation starts from an infinity then, so
     that there is no `nan` to come of it.

  4. **Results** — an operator overflows exactly if the exact result is not below 2¹⁰²⁴ − 2⁹⁷⁰, from
     where on the bound of the finite range is nearest (`Operator.apply_eq_error_iff`).
-/
import Calculator.Operation
import Calculator.Proofs.WholeNumbers
import Mathlib.Algebra.Order.Field.Basic
import Mathlib.Algebra.Order.Field.Rat
import Mathlib.Tactic.Ring

namespace Calculator

/-! ## Exact numbers -/

namespace Binary64

-- powers of two that no proof is to compute
attribute [local irreducible] one overflowBound

/-- The rational number that a finite number is. -/
def toRat : Binary64 → ℚ
  | .finite negative units _ => signed negative units / one
  | .infinite _ | .nan => 0

/-- The number is this rational one, rounded once. -/
def IsRounded (r : ℚ) (x : Binary64) : Prop :=
  ∃ negative num den, 0 < den ∧ x = ofQuotient negative num den ∧
    r = signed negative num / (den * one)

variable {x y : Binary64} {r : ℚ} {num den : Nat} {negative : Bool}

theorem cast_one_pos : (0 : ℚ) < (one : ℚ) := Nat.cast_pos.2 one_pos

/-- What is rounded is no `nan`. -/
theorem IsRounded.ne_nan (h : IsRounded r x) : x ≠ .nan := by
  obtain ⟨negative, num, den, _, rfl, _⟩ := h
  exact ofQuotient_ne_nan negative num den

/-- Rounding gives an infinity, or a finite number. -/
theorem isFinite_ofQuotient_eq_false_iff :
    (ofQuotient negative num den).isFinite = false ↔
      ofQuotient negative num den = .infinite negative := by
  rw [ofQuotient]
  split <;> simp

theorem two_mul_overflowBound_sub :
    2 * overflowBound - 2 ^ greatestGap = (2 ^ 1024 - 2 ^ 970) * (2 * one) := by
  decide +kernel

theorem cast_two_pow_sub {a b : Nat} (h : a ≤ b) : ((2 ^ b - 2 ^ a : Nat) : ℚ) = 2 ^ b - 2 ^ a := by
  rw [Nat.cast_sub (Nat.pow_le_pow_right Nat.two_pos h), Nat.cast_pow, Nat.cast_pow, Nat.cast_ofNat]

/-- **A rounded number is infinite** exactly from halfway between the greatest finite one and the next
    power of two on. -/
theorem IsRounded.isFinite_eq_false_iff (h : IsRounded r x) :
    x.isFinite = false ↔ 2 ^ 1024 - 2 ^ 970 ≤ |r| := by
  obtain ⟨negative, num, den, hden, rfl, rfl⟩ := h
  have hnum : |(signed negative num : ℚ)| = num := by
    rw [← Int.cast_abs, Int.abs_eq_natAbs, natAbs_signed, Int.cast_natCast]
  have hpos : (0 : ℚ) < den * one := mul_pos (Nat.cast_pos.2 hden) cast_one_pos
  rw [isFinite_ofQuotient_eq_false_iff, ofQuotient_eq_infinite_iff hden, two_mul_overflowBound_sub,
    abs_div, hnum, abs_of_pos hpos, le_div_iff₀ hpos,
    ← cast_two_pow_sub (show 970 ≤ 1024 by decide)]
  -- what the bound is plays no part any more
  generalize 2 ^ 1024 - 2 ^ 970 = bound
  have hunits : bound * (2 * one) * den = 2 * (bound * (den * one)) := by ring
  rw [hunits, Nat.mul_le_mul_left_iff Nat.two_pos]
  exact_mod_cast Iff.rfl

/-- A number fails the check exactly if it is not finite. -/
theorem checked_eq_error_iff {position : Nat} {fault : Fault} :
    x.checked position = .error fault ↔ x.isFinite = false ∧ fault = ⟨.overflow, position⟩ := by
  rw [checked]
  split
  · next hfinite => simp [hfinite]
  · next hfinite =>
    rw [Except.error.injEq, eq_comm, ← Bool.not_eq_true]
    exact (and_iff_right hfinite).symm

/-! ## Operations -/

/-- A finite number, taken apart. -/
theorem exists_of_isFinite (h : x.isFinite = true) :
    ∃ negative units representable, x = .finite negative units representable := by
  rcases x with ⟨negative, units, representable⟩ | _ | _
  · exact ⟨negative, units, representable, rfl⟩
  · cases h
  · cases h

/-- Where a sum cancels, it is the zero without a sign. -/
theorem isRounded_zero : IsRounded 0 (zero false) := by
  refine ⟨false, 0, 1, Nat.one_pos, ?_, ?_⟩
  · decide +kernel
  · rw [signed_zero, Int.cast_zero, zero_div]

/-- A sum of finite numbers is rounded once. -/
theorem isRounded_add (hx : x.isFinite = true) (hy : y.isFinite = true) :
    IsRounded (x.toRat + y.toRat) (x.add y) := by
  obtain ⟨a, u, hu, rfl⟩ := exists_of_isFinite hx
  obtain ⟨b, v, hv, rfl⟩ := exists_of_isFinite hy
  rw [toRat, toRat, ← add_div, ← Int.cast_add]
  rcases add_finite with ⟨negative, units, hexact, hadd⟩ | ⟨hcancel, hadd⟩
  · rw [hadd]
    refine ⟨negative, units, 1, Nat.one_pos, rfl, ?_⟩
    rw [hexact, Nat.cast_one, one_mul]
  · rw [hadd, hcancel, Int.cast_zero, zero_div]
    exact isRounded_zero

/-- The other sign is that of the opposite number. -/
theorem toRat_neg (x : Binary64) : x.neg.toRat = -x.toRat := by
  rcases x with ⟨negative, units, _⟩ | _ | _
  · rw [neg, toRat, toRat, signed_not, Int.cast_neg, neg_div]
  · exact neg_zero.symm
  · exact neg_zero.symm

/-- A difference, likewise. -/
theorem isRounded_sub (hx : x.isFinite = true) (hy : y.isFinite = true) :
    IsRounded (x.toRat - y.toRat) (x.sub y) := by
  rw [sub_eq_add_neg, ← toRat_neg]
  exact isRounded_add hx (y.isFinite_neg.trans hy)

/-- A product, likewise. -/
theorem isRounded_mul (hx : x.isFinite = true) (hy : y.isFinite = true) :
    IsRounded (x.toRat * y.toRat) (x.mul y) := by
  obtain ⟨a, u, hu, rfl⟩ := exists_of_isFinite hx
  obtain ⟨b, v, hv, rfl⟩ := exists_of_isFinite hy
  refine ⟨a != b, u * v, one, one_pos, rfl, ?_⟩
  rw [toRat, toRat, signed_bne, Int.cast_mul, div_mul_div_comm]

/-- A quotient, likewise, unless the divisor is zero. -/
theorem isRounded_div (hx : x.isFinite = true) (hy : y.isFinite = true) (hne : y.isZero = false) :
    IsRounded (x.toRat / y.toRat) (x.div y) := by
  obtain ⟨a, u, hu, rfl⟩ := exists_of_isFinite hx
  obtain ⟨b, v, hv, rfl⟩ := exists_of_isFinite hy
  have hv0 : v ≠ 0 := by
    rw [isZero_finite, decide_eq_false_iff_not] at hne
    exact hne
  rw [Binary64.div, if_neg hv0]
  refine ⟨a != b, u * one, v, Nat.pos_of_ne_zero hv0, rfl, ?_⟩
  have hone := cast_one_pos.ne'
  rw [toRat, toRat, div_div_div_cancel_right₀ hone, signed_mul, Int.cast_mul, Int.cast_natCast,
    mul_div_mul_right _ _ hone]
  cases b with
  | false =>
    rw [Bool.bne_false]
    rfl
  | true =>
    have hsign : (signed true v : ℚ) = -v := by rw [signed, if_pos rfl, Int.cast_neg, Int.cast_natCast]
    rw [Bool.bne_true, signed_not, Int.cast_neg, hsign, div_neg, neg_div]

end Binary64

/-! ## Operators -/

open Binary64

namespace Operator

/-- The operator on rational numbers. -/
def exact : Operator → ℚ → ℚ → ℚ
  | .add => (· + ·)
  | .sub => (· - ·)
  | .mul => (· * ·)
  | .div => (· / ·)

/-- What an operator comes to before it is checked. -/
def compute : Operator → Binary64 → Binary64 → Binary64
  | .add => Binary64.add
  | .sub => Binary64.sub
  | .mul => Binary64.mul
  | .div => Binary64.div

/-- There is nothing to compute: the divisor is zero, with whatever sign. -/
def Refuses (op : Operator) (right : Binary64) : Prop := op = .div ∧ right.isZero = true

instance (op : Operator) (right : Binary64) : Decidable (op.Refuses right) :=
  inferInstanceAs (Decidable (_ ∧ _))

variable {op : Operator} {x y : Binary64}

/-- An operator that is applied refuses, or computes and checks. -/
theorem apply_eq (op : Operator) (x y : Binary64) (position : Nat) :
    op.apply x y position =
      if op.Refuses y then .error ⟨.divisionByZero, position⟩
      else (op.compute x y).checked position := by
  rcases op with _ | _ | _ | _
  case div =>
    by_cases hzero : y.isZero = true
    · rw [if_pos ⟨rfl, hzero⟩, apply, if_pos hzero]
    · rw [if_neg fun h => hzero h.2, apply, if_neg hzero]
      rfl
  all_goals
    rw [if_neg fun h => by cases h.1]
    rfl

/-- **What is computed** of finite operands is the exact result, rounded once. -/
theorem isRounded_compute (hx : x.isFinite = true) (hy : y.isFinite = true) (h : ¬ op.Refuses y) :
    IsRounded (op.exact x.toRat y.toRat) (op.compute x y) := by
  cases op with
  | add => exact isRounded_add hx hy
  | sub => exact isRounded_sub hx hy
  | mul => exact isRounded_mul hx hy
  | div => exact isRounded_div hx hy (Bool.eq_false_iff.2 fun hzero => h ⟨rfl, hzero⟩)

/-- **Why an operator fails.**  A divisor is zero, or the exact result lies beyond the range; and the
    place is that of the operator. -/
theorem apply_eq_error_iff (hx : x.isFinite = true) (hy : y.isFinite = true) {position : Nat}
    {fault : Fault} :
    op.apply x y position = .error fault ↔
      op.Refuses y ∧ fault = ⟨.divisionByZero, position⟩ ∨
        ¬ op.Refuses y ∧ 2 ^ 1024 - 2 ^ 970 ≤ |op.exact x.toRat y.toRat| ∧
          fault = ⟨.overflow, position⟩ := by
  rw [apply_eq]
  by_cases hrefuses : op.Refuses y
  · rw [if_pos hrefuses, Except.error.injEq, eq_comm]
    simp only [hrefuses, true_and, not_true_eq_false, false_and, or_false]
  · have hrounded := isRounded_compute hx hy hrefuses
    rw [if_neg hrefuses, checked_eq_error_iff, hrounded.isFinite_eq_false_iff]
    simp only [hrefuses, false_and, not_false_eq_true, true_and, false_or]

end Operator

end Calculator
