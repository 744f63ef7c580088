/-
  The fewest digits that read back.

  Problem: of all decimals that round to a given finite number, find one with as few digits as
  possible, and among those the nearest to the number itself.

  1. **The grid** — a number of `u` units is exactly `u * 5 ^ 1074` times 10⁻¹⁰⁷⁴, so in these
     finer units it is a whole number, and so is every decimal of a coarser grid.  Few digits means
     a coarse grid: a multiple of `10 ^ j` with `j` as large as possible.

  2. **The interval** — the decimals that round to the number lie between the midpoints to its two
     neighbours.  Below a power of two the neighbour is nearer by half.  The midpoints themselves
     belong to it when the significand is even, because a tie goes to the even side.

  3. **Program** — `search` walks from a grid coarser than the number itself to finer ones.  On
     each it looks at the two multiples around the number; the first grid where one of them lies
     in the interval is the coarsest with any multiple in it, because the interval holds the
     number.  Of two hits it takes the nearer, and the upper of two equally near.  On the finest
     grid the number itself is a multiple, so the walk always ends with an answer.
-/
import Calculator.Binary64.Numeral

namespace Calculator.Binary64

/-- One unit, counted in 10⁻¹⁰⁷⁴. -/
def unitInFiner : Nat := Nat.pow 5 1074

/-- Twice the distances from a magnitude to the midpoints below and above it, in units. -/
def halfGaps (units : Nat) : Nat × Nat :=
  let s := gapExponent units
  if s ≠ 0 ∧ units = Nat.pow 2 (52 + s) then (Nat.pow 2 (s - 1), Nat.pow 2 s)
  else (Nat.pow 2 s, Nat.pow 2 s)

/-- Whether half of `twice`, in 10⁻¹⁰⁷⁴, rounds to the magnitude. -/
def roundsTo (units twice : Nat) : Bool :=
  let (below, above) := halfGaps units
  let least := (2 * units - below) * unitInFiner
  let greatest := (2 * units + above) * unitInFiner
  if units / Nat.pow 2 (gapExponent units) % 2 = 0 then
    decide (least ≤ twice ∧ twice ≤ greatest)
  else decide (least < twice ∧ twice < greatest)

/-- The multiple of `10 ^ j` to take for the magnitude, if one next to it rounds to it. -/
def multiple? (units j : Nat) : Option Nat :=
  let value := units * unitInFiner
  let step := Nat.pow 10 j
  let lower := value / step
  match roundsTo units (2 * (lower * step)), roundsTo units (2 * ((lower + 1) * step)) with
  | true, true => some (if 2 * (value % step) < step then lower else lower + 1)
  | true, false => some lower
  | false, true => some (lower + 1)
  | false, false => none

/-- The coarsest grid `10 ^ j` from a given one on that has a multiple for the magnitude, and
    that multiple. -/
def search (units : Nat) : Nat → Nat × Nat
  | 0 => (units * unitInFiner, 0)
  | j + 1 =>
    match multiple? units (j + 1) with
    | some coefficient => (coefficient, j + 1)
    | none => search units j

/-- A grid whose step exceeds the magnitude, and hardly more than it has to: a number of `n` bits is
    below `10 ^ (n * 28 / 93 + 1)`, because `2 ^ 93` is below `10 ^ 28`. -/
def coarsest (units : Nat) : Nat := ((units * unitInFiner).log2 + 1) * 28 / 93 + 1

/-- The shortest decimal that reads back as the magnitude. -/
def shortest (units : Nat) : Decimal :=
  if units = 0 then ⟨0, 0⟩
  else
    let (coefficient, j) := search units (coarsest units)
    ⟨coefficient, (j : Int) - 1074⟩

end Calculator.Binary64
