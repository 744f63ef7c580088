/-
  The numbers that results are.

  A result is a 64-bit binary floating-point number: a finite one, one of two infinities, or the
  answer that is no number.  All finite ones are whole multiples of 2⁻¹⁰⁷⁴, the smallest positive
  one, so a finite number is kept as a sign and a count of these units.  Zero has either sign.

  1. **Which counts occur** — `Representable`: at most 53 significant bits, `m * 2 ^ s` with
     `m < 2 ^ 53`, and below `overflowBound = 2 ^ 2098`, that is, `s ≤ 2045`.  The constructor of
     a finite number asks for the proof, so no other count is ever met.

  2. **Why units** — the exact sum, product or quotient of two numbers is then a quotient of two
     natural numbers, equality of numbers is equality of counts, and the order of magnitudes is
     the order of `Nat`.  Nothing has to be normalized.
-/

namespace Calculator

namespace Binary64

/-- The finite range ends at this power of two, in units. -/
def overflowExponent : Nat := 2098

/-- The least magnitude, in units, that lies beyond the finite range: 2¹⁰²⁴. -/
def overflowBound : Nat := Nat.pow 2 overflowExponent

/-- The number of units in one. -/
def one : Nat := Nat.pow 2 1074

/-- The magnitudes, in units, of finite numbers. -/
def Representable (units : Nat) : Prop :=
  ∃ m s, m < Nat.pow 2 53 ∧ s ≤ 2045 ∧ units = m * Nat.pow 2 s

theorem representable_zero : Representable 0 := ⟨0, 0, by decide, by decide, rfl⟩

end Binary64

/-- A 64-bit binary floating-point number.  `finite negative units` is `units` times 2⁻¹⁰⁷⁴ with
    the sign in front. -/
inductive Binary64 where
  | finite (negative : Bool) (units : Nat) (representable : Binary64.Representable units)
  | infinite (negative : Bool)
  | nan
  deriving DecidableEq

namespace Binary64

/-- Zero, with the sign in front. -/
def zero (negative : Bool) : Binary64 := .finite negative 0 representable_zero

instance : Inhabited Binary64 := ⟨zero false⟩

/-- Neither infinite nor `nan`. -/
def isFinite : Binary64 → Bool
  | .finite .. => true
  | .infinite _ | .nan => false

/-- Zero of either sign. -/
def isZero : Binary64 → Bool
  | .finite _ units _ => units = 0
  | .infinite _ | .nan => false

/-- The number with the other sign. -/
def neg : Binary64 → Binary64
  | .finite negative units h => .finite (!negative) units h
  | .infinite negative => .infinite (!negative)
  | .nan => .nan

@[simp] theorem isFinite_finite (negative : Bool) (units : Nat) (h : Representable units) :
    (finite negative units h).isFinite = true := rfl

@[simp] theorem isFinite_infinite (negative : Bool) : (infinite negative).isFinite = false := rfl

@[simp] theorem isFinite_nan : nan.isFinite = false := rfl

@[simp] theorem isZero_finite (negative : Bool) (units : Nat) (h : Representable units) :
    (finite negative units h).isZero = decide (units = 0) := rfl

@[simp] theorem isFinite_neg (x : Binary64) : x.neg.isFinite = x.isFinite := by
  cases x <;> rfl

end Binary64

end Calculator
