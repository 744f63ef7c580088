/-
  Sum, difference, product and quotient.

  An operation on finite numbers is its exact result, rounded once.  With magnitudes counted in
  units that result is a quotient of natural numbers: a sum is a sum of counts, a product has to
  be divided by the count of one, a quotient to be multiplied by it.

  The rest are the cases without a finite answer.  A sum that cancels is positive zero; a sum of
  two zeros keeps a sign that both have.
-/
import Calculator.Binary64.Rounding

namespace Calculator.Binary64

/-- Sum, rounded once. -/
def add : Binary64 → Binary64 → Binary64
  | .nan, _ | _, .nan => .nan
  | .infinite a, .infinite b => if a = b then .infinite a else .nan
  | .infinite a, .finite .. => .infinite a
  | .finite .., .infinite b => .infinite b
  | .finite a u _, .finite b v _ =>
    if a = b then ofQuotient a (u + v) 1
    else if v < u then ofQuotient a (u - v) 1
    else if u < v then ofQuotient b (v - u) 1
    else zero false

/-- Difference, rounded once: the sum with the sign of the right side changed. -/
def sub (x y : Binary64) : Binary64 := add x y.neg

/-- Product, rounded once. -/
def mul : Binary64 → Binary64 → Binary64
  | .nan, _ | _, .nan => .nan
  | .infinite a, .infinite b => .infinite (a != b)
  | .infinite a, .finite b v _ => if v = 0 then .nan else .infinite (a != b)
  | .finite a u _, .infinite b => if u = 0 then .nan else .infinite (a != b)
  | .finite a u _, .finite b v _ => ofQuotient (a != b) (u * v) one

/-- Quotient, rounded once. -/
def div : Binary64 → Binary64 → Binary64
  | .nan, _ | _, .nan => .nan
  | .infinite _, .infinite _ => .nan
  | .infinite a, .finite b _ _ => .infinite (a != b)
  | .finite a _ _, .infinite b => zero (a != b)
  | .finite a u _, .finite b v _ =>
    if v = 0 then if u = 0 then .nan else .infinite (a != b)
    else ofQuotient (a != b) (u * one) v

end Calculator.Binary64
