/-
  Sets of code points.

  A property of the Unicode standard is a set of code points, and the standard's own tables give
  such a set as a list of inclusive ranges.  A set is kept here in that form, so that the module
  of a property is one table and one name.
-/

namespace Calculator.Text

/-- A set of code points, as inclusive ranges `(first, last)` in increasing order. -/
structure CodePoints where
  ranges : List (Nat × Nat)

/-- A character belongs to a set when one of the ranges holds its code point. -/
def CodePoints.contains (set : CodePoints) (c : Char) : Bool :=
  set.ranges.any fun range => decide (range.1 ≤ c.toNat ∧ c.toNat ≤ range.2)

/-- Membership, read off the ranges. -/
theorem CodePoints.contains_iff {set : CodePoints} {c : Char} :
    set.contains c = true ↔ ∃ range ∈ set.ranges, range.1 ≤ c.toNat ∧ c.toNat ≤ range.2 := by
  simp [contains, List.any_eq_true]

end Calculator.Text
