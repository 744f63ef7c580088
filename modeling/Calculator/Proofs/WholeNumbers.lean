/-
  Whole numbers are computed exactly.

  Problem: every operation rounds, and yet as long as nothing exceeds 2⁵³ the results should be
  those of the integers.  Say when this is so, and show it for whole expressions.

  1. **Specification** — `Phrase.onIntegers`: an expression is worked off over the integers, in the
     order in which its operators are applied.  It is given up at an obstacle: a divisor that is
     zero, a quotient that is not whole, a number beyond 2⁵³.

  2. **Numbers and integers** — `Binary64.Equals`: a number is equal to an integer if it is that
     many times one.  Zero is so with either sign.

  3. **The crux (`equals_ofQuotient`)** — an exact result that is a whole number of at most 2⁵³ is a
     magnitude that exists, so nothing is nearer to it and rounding gives nothing else.  For each
     operator it remains to say what the exact result is.

  4. **Result (`evaluateWith_agrees_with_integers`)** — by induction on expressions the two
     computations go side by side.  Where the integers meet a divisor of zero, the division is
     refused at its place, also if that zero has a minus sign.
-/
import Calculator.Proofs.Literals
import Calculator.Proofs.Remainder

namespace Calculator

open Binary64

/-! ## Over the integers -/

/-- Why a computation over the integers is given up. -/
inductive Obstacle where
  /-- The divisor of the operator at this place is zero. -/
  | zeroDivisor (position : Nat)
  /-- A quotient is not whole, or a number is beyond 2⁵³. -/
  | inexact
  deriving DecidableEq

/-- An integer that is not beyond 2⁵³. -/
def within (n : Int) : Except Obstacle Int :=
  if n.natAbs ≤ 2 ^ 53 then .ok n else .error .inexact

/-- The integer that a literal is.  A rounded one is beyond 64 bits. -/
def Literal.onIntegers : Literal → Except Obstacle Int
  | .exact value => within value.toNat
  | .rounded _ => .error .inexact

/-- The operator at a place of the text, applied to integers. -/
def Operator.onIntegers (op : Operator) (left right : Int) (position : Nat) :
    Except Obstacle Int :=
  match op with
  | .add => within (left + right)
  | .sub => within (left - right)
  | .mul => within (left * right)
  | .div =>
    if right = 0 then .error (.zeroDivisor position)
    else if right ∣ left then within (left / right)
    else .error .inexact

/-- What a phrase comes to over the integers: an integer, and for rounds the integer that the chain
    comes to in the end, given the one it has come to so far. -/
abbrev Nonterminal.OnIntegers : Nonterminal → Type
  | .operand _ | .chain _ => Except Obstacle Int
  | .rounds _ => Int → Except Obstacle Int

/-- The integer that a phrase comes to, or the first obstacle met on the way to it. -/
def Phrase.onIntegers : {k : Nonterminal} → Phrase k → k.OnIntegers
  | _, .integer literal _ => literal.onIntegers
  | _, .group _ inner _ => inner.onIntegers
  | _, .term inner => inner.onIntegers
  | _, .chain first more => do
    let left : Int ← first.onIntegers
    more.onIntegers left
  | _, .done => fun left => .ok left
  | _, .round op position _ right more => fun left => do
    let value : Int ← right.onIntegers
    let result ← op.onIntegers left value position
    more.onIntegers result

/-! ## Numbers and integers -/

namespace Binary64

/-- The number is so many times one.  Zero is, with either sign. -/
inductive Equals : Binary64 → Int → Prop where
  | finite {negative : Bool} {units : Nat} {h : Representable units} {n : Int}
    (heq : signed negative units = n * one) : Equals (.finite negative units h) n

theorem two_pow_53_mul_one : 2 ^ 53 * one = 1 * Nat.pow 2 (53 + 1074) := by decide +kernel

theorem mul_one_eq (n : Nat) : n * one = n * Nat.pow 2 1074 := by
  unfold one
  rfl

-- powers of two that no proof is to compute
attribute [local irreducible] one overflowBound

/-- Whole numbers of at most 2⁵³ exist. -/
theorem representable_mul_one {n : Nat} (h : n ≤ 2 ^ 53) : Representable (n * one) := by
  rcases Nat.lt_or_eq_of_le h with hlt | rfl
  · exact ⟨n, 1074, hlt, by decide, mul_one_eq n⟩
  · exact ⟨1, 53 + 1074, by decide, by decide, two_pow_53_mul_one⟩

variable {x y : Binary64} {m n : Int} {u v : Nat} {a b negative : Bool}

/-! ### Signs -/

theorem natAbs_signed (negative : Bool) (units : Nat) : (signed negative units).natAbs = units := by
  cases negative
  · rfl
  · exact Int.natAbs_neg _

theorem signed_mul (negative : Bool) (u v : Nat) :
    signed negative (u * v) = signed negative u * v := by
  cases negative
  · exact Int.natCast_mul u v
  · show -((u * v : Nat) : Int) = -(u : Int) * v
    rw [Int.natCast_mul, Int.neg_mul]

theorem signed_zero (negative : Bool) : signed negative 0 = 0 := by
  cases negative <;> rfl

theorem signed_not (negative : Bool) (u : Nat) : signed (!negative) u = -signed negative u := by
  cases negative
  · rfl
  · exact (Int.neg_neg _).symm

theorem signed_bne (a b : Bool) (u v : Nat) :
    signed (a != b) (u * v) = signed a u * signed b v := by
  cases b
  · rw [Bool.bne_false, signed_mul]
    rfl
  · rw [Bool.bne_true, signed_not, signed_mul, ← Int.mul_neg]
    rfl

theorem signed_add (negative : Bool) (u v : Nat) :
    signed negative (u + v) = signed negative u + signed negative v := by
  cases negative <;> simp only [signed] <;> grind

theorem signed_sub (negative : Bool) (h : v ≤ u) :
    signed negative (u - v) = signed negative u - signed negative v := by
  cases negative <;> simp only [signed] <;> grind

/-! ### Exact results -/

/-- The magnitude, if a multiple is given with its sign. -/
theorem eq_natAbs_mul {i : Int} (h : signed negative u = i * v) : u = i.natAbs * v := by
  rw [← natAbs_signed negative u, h, Int.natAbs_mul, Int.natAbs_natCast]

/-- **An exact result that is a whole number** of at most 2⁵³ is not changed by rounding. -/
theorem equals_ofQuotient {num den : Nat} (hsmall : n.natAbs ≤ 2 ^ 53) (hden : 0 < den)
    (h : signed negative num = n * one * den) : (ofQuotient negative num den).Equals n := by
  have hnum : num = n.natAbs * one * den := by
    rw [← Int.natAbs_natCast one, ← Int.natAbs_mul, ← eq_natAbs_mul h]
  have hrepresentable := representable_mul_one hsmall
  have hnearest : Nearest num den (n.natAbs * one) := by
    rw [hnum]
    exact nearest_mul (representable_iff_reachable.1 hrepresentable).1 hden
  rw [ofQuotient_eq_finite hden hrepresentable hnearest]
  rw [hnum, signed_mul] at h
  exact .finite (Int.eq_of_mul_eq_mul_right (by omega) h)

/-! ### Operations -/

/-- Natural numbers of at most 2⁵³ are themselves. -/
theorem equals_ofNat {n : Nat} (hsmall : n ≤ 2 ^ 53) : (ofNat n).Equals n := by
  refine equals_ofQuotient hsmall Nat.one_pos ?_
  show ((n * one : Nat) : Int) = n * one * (1 : Nat)
  rw [Int.natCast_mul, Int.natCast_one, Int.mul_one]

/-- The other sign is that of the opposite integer. -/
theorem Equals.neg (h : x.Equals n) : x.neg.Equals (-n) := by
  cases h with
  | finite h =>
    refine .finite ?_
    rw [signed_not, h, Int.neg_mul]

/-- A sum of numbers is the exact sum, rounded once; or they cancel, and it is the zero without a
    sign. -/
theorem add_finite {hu : Representable u} {hv : Representable v} :
    (∃ negative units, signed negative units = signed a u + signed b v ∧
        (finite a u hu).add (finite b v hv) = ofQuotient negative units 1) ∨
      (signed a u + signed b v = 0 ∧ (finite a u hu).add (finite b v hv) = zero false) := by
  simp only [Binary64.add]
  split
  · next hsign =>
    subst hsign
    exact .inl ⟨a, u + v, signed_add a u v, rfl⟩
  · next hsign =>
    obtain rfl : b = !a := Bool.eq_not_iff.2 (Ne.symm hsign)
    rw [signed_not]
    split
    · next hlt => exact .inl ⟨a, u - v, signed_sub a (Nat.le_of_lt hlt), rfl⟩
    · split
      · next hlt =>
        refine .inl ⟨!a, v - u, ?_, rfl⟩
        rw [signed_not, signed_sub a (Nat.le_of_lt hlt)]
        omega
      · next hge hle =>
        obtain rfl : u = v := by omega
        exact .inr ⟨Int.add_right_neg _, rfl⟩

/-- A sum that is not beyond 2⁵³ is that of the integers. -/
theorem Equals.add (hx : x.Equals m) (hy : y.Equals n) (hsmall : (m + n).natAbs ≤ 2 ^ 53) :
    (x.add y).Equals (m + n) := by
  cases hx with
  | @finite a u _ _ hx =>
  cases hy with
  | @finite b v _ _ hy =>
  have hsum : signed a u + signed b v = (m + n) * one := by rw [hx, hy, ← Int.add_mul]
  rcases add_finite with ⟨negative, units, hexact, hadd⟩ | ⟨hcancel, hadd⟩
  · rw [hadd]
    refine equals_ofQuotient hsmall Nat.one_pos ?_
    rw [hexact, hsum, Int.natCast_one, Int.mul_one]
  · rw [hadd]
    refine .finite ?_
    rw [← hsum, hcancel, signed_zero]

/-- A difference, likewise. -/
theorem Equals.sub (hx : x.Equals m) (hy : y.Equals n) (hsmall : (m - n).natAbs ≤ 2 ^ 53) :
    (x.sub y).Equals (m - n) := by
  rw [Int.sub_eq_add_neg] at hsmall ⊢
  exact hx.add hy.neg hsmall

/-- A product, likewise. -/
theorem Equals.mul (hx : x.Equals m) (hy : y.Equals n) (hsmall : (m * n).natAbs ≤ 2 ^ 53) :
    (x.mul y).Equals (m * n) := by
  cases hx with
  | @finite a u _ _ hx =>
  cases hy with
  | @finite b v _ _ hy =>
  refine equals_ofQuotient hsmall one_pos ?_
  rw [signed_bne, hx, hy]
  ac_rfl

/-- A quotient without a rest, likewise. -/
theorem Equals.div (hx : x.Equals m) (hy : y.Equals n) (hne : n ≠ 0) (hdvd : n ∣ m)
    (hsmall : (m / n).natAbs ≤ 2 ^ 53) : (x.div y).Equals (m / n) := by
  obtain ⟨k, rfl⟩ := hdvd
  rw [Int.mul_ediv_cancel_left k hne] at hsmall ⊢
  cases hx with
  | @finite a u _ _ hx =>
  cases hy with
  | @finite b v _ _ hy =>
  have hone : (one : Int) ≠ 0 := Int.natCast_ne_zero.2 one_pos.ne'
  have hv : v ≠ 0 := by
    rintro rfl
    rw [signed_zero] at hy
    exact Int.mul_ne_zero hne hone hy.symm
  show (if v = 0 then _ else ofQuotient (a != b) (u * one) v).Equals k
  rw [if_neg hv]
  refine equals_ofQuotient hsmall (Nat.pos_of_ne_zero hv) ?_
  cases b with
  | false =>
    have hv : (v : Int) = n * one := hy
    rw [Bool.bne_false, signed_mul, hx, hv]
    ac_rfl
  | true =>
    have hv : (v : Int) = -(n * one) := (Int.neg_eq_comm.1 hy).symm
    rw [Bool.bne_true, signed_not, signed_mul, hx, hv, Int.mul_neg]
    ac_rfl

/-- A number that is zero as an integer is zero, with whatever sign, and no other number is. -/
theorem Equals.isZero_eq (h : x.Equals n) : x.isZero = decide (n = 0) := by
  cases h with
  | @finite negative units _ _ h =>
  refine decide_eq_decide.2 ?_
  rw [eq_natAbs_mul h, Nat.mul_eq_zero, Int.natAbs_eq_zero]
  exact or_iff_left one_pos.ne'

end Binary64

/-! ## Expressions -/

/-- What the numbers come to, given what the integers come to: the same if these are not given up,
    and a refused division where they meet a divisor of zero. -/
def Agrees : Except Obstacle Int → Except Fault Binary64 → Prop
  | .ok n, outcome => ∃ x, outcome = .ok x ∧ x.Equals n
  | .error (.zeroDivisor position), outcome => outcome = .error ⟨.divisionByZero, position⟩
  | .error .inexact, _ => True

/-- The same of phrases; rounds are given equal values to start with. -/
def Nonterminal.Agrees : (k : Nonterminal) → k.OnIntegers → k.Meaning → Prop
  | .operand _, integers, numbers | .chain _, integers, numbers =>
    Calculator.Agrees integers numbers
  | .rounds _, integers, numbers =>
    ∀ (x : Binary64) (n : Int), x.Equals n → Calculator.Agrees (integers n) (numbers x)

/-- One computation after another. -/
theorem Agrees.bind {integers : Except Obstacle Int} {numbers : Except Fault Binary64}
    {f : Int → Except Obstacle Int} {g : Binary64 → Except Fault Binary64}
    (h : Agrees integers numbers)
    (hnext : ∀ (x : Binary64) (n : Int), x.Equals n → Agrees (f n) (g x)) :
    Agrees (integers >>= f) (numbers >>= g) := by
  rcases integers with (_ | _) | n
  · have hfault : numbers = _ := h
    rw [hfault]
    rfl
  · trivial
  · obtain ⟨x, rfl, hx⟩ := h
    exact hnext x n hx

/-- A result that is not beyond 2⁵³ passes the check. -/
theorem agrees_checked {x : Binary64} {n : Int} (h : n.natAbs ≤ 2 ^ 53 → x.Equals n)
    (position : Nat) : Agrees (within n) (x.checked position) := by
  rw [within]
  split
  · next hsmall =>
    have hx := h hsmall
    have hfinite : x.isFinite = true := by
      cases hx
      rfl
    exact ⟨x, if_pos hfinite, hx⟩
  · trivial

/-- **Literals agree.** -/
theorem Literal.agrees (literal : Literal) (position : Nat) :
    Agrees literal.onIntegers (literal.toBinary64.checked position) := by
  cases literal with
  | exact value => exact agrees_checked (fun hsmall => equals_ofNat hsmall) position
  | rounded _ => trivial

/-- **Operators agree.** -/
theorem Operator.agrees (op : Operator) {x y : Binary64} {m n : Int} (hx : x.Equals m)
    (hy : y.Equals n) (position : Nat) :
    Agrees (op.onIntegers m n position) (op.apply x y position) := by
  cases op with
  | add => exact agrees_checked (hx.add hy) position
  | sub => exact agrees_checked (hx.sub hy) position
  | mul => exact agrees_checked (hx.mul hy) position
  | div =>
    simp only [onIntegers, apply, hy.isZero_eq]
    by_cases hzero : n = 0
    · simp only [hzero, decide_true, if_true]
      rfl
    · simp only [hzero, decide_false, if_false]
      split
      · next hdvd => exact agrees_checked (hx.div hy hzero hdvd) position
      · trivial

/-- **Expressions agree**, and all their parts. -/
theorem Phrase.agrees {k : Nonterminal} (e : Phrase k) : k.Agrees e.onIntegers e.eval := by
  induction e with
  | integer literal position => exact literal.agrees position
  | group opening inner closing ih => exact ih
  | term inner ih => exact ih
  | chain first more ih₁ ih₂ => exact Agrees.bind ih₁ ih₂
  | done => exact fun x n h => ⟨x, rfl, h⟩
  | round op position hlevel right more ih₁ ih₂ =>
    intro x n h
    exact Agrees.bind ih₁ fun y m h' => Agrees.bind (op.agrees h h' position) ih₂

/-- **Whole numbers up to 2⁵³ are computed exactly.**  Take an expression, nested within the limit,
    that is worked off over the integers without an obstacle: no literal and no result on the way
    is beyond 2⁵³, and every quotient is whole.  Then the text has a value, and it is equal to the
    integer.  If the first obstacle is a divisor of zero, the division there is refused, whatever
    sign the zero has among the numbers. -/
theorem evaluateWith_agrees_with_integers {settings : Settings} {text : String} {e : Expression}
    (htext : Placed.ofText text = e.placed) (hnesting : e.nesting ≤ settings.maxDepth) :
    (∀ n, e.onIntegers = .ok n → ∃ x, evaluateWith settings text = .ok x ∧ x.Equals n) ∧
    (∀ position, e.onIntegers = .error (.zeroDivisor position) →
      evaluateWith settings text = .error ⟨.divisionByZero, position⟩) := by
  have hagrees : Agrees e.onIntegers e.eval := e.agrees
  rw [evaluateWith_eq_eval htext hnesting]
  constructor
  · intro n hn
    rw [hn] at hagrees
    exact hagrees
  · intro position hzero
    rw [hzero] at hagrees
    exact hagrees

/-- With a minus sign, 2⁵³ itself is still within the bound. -/
theorem quotient_of_two_pow_53_agrees :
    ∃ e : Expression,
      Placed.ofText "(1 - 2) * 9007199254740992 / (0 - 8)" = e.placed ∧ e.nesting ≤ 1 ∧
      e.onIntegers = .ok (2 ^ 50) ∧
      ∃ x, evaluateWith ⟨1, .rejected⟩ "(1 - 2) * 9007199254740992 / (0 - 8)" = .ok x ∧
        x.Equals (2 ^ 50) := by
  have htext : Placed.ofText "(1 - 2) * 9007199254740992 / (0 - 8)" =
      (Phrase.chain (.term (.chain
        (.group 0 (.chain (.term (.chain (.integer (.exact 1) 1) .done))
          (.round .sub 3 rfl (.term (.chain (.integer (.exact 2) 5) .done)) .done)) 6)
        (.round .mul 8 rfl (.integer (.exact 9007199254740992) 10)
          (.round .div 27 rfl
            (.group 29 (.chain (.term (.chain (.integer (.exact 0) 30) .done))
              (.round .sub 32 rfl (.term (.chain (.integer (.exact 8) 34) .done)) .done)) 35)
            .done)))) .done).placed := by
    decide +kernel
  have hnesting : _ ≤ (⟨1, .rejected⟩ : Settings).maxDepth := Nat.le_refl 1
  exact ⟨_, htext, hnesting, by decide +kernel,
    (evaluateWith_agrees_with_integers htext hnesting).1 _ (by decide +kernel)⟩

-- the divisor is zero with a minus sign
example : evaluateWith ⟨2, .rejected⟩ "8 / (0 * (0 - 1))" = .error ⟨.divisionByZero, 2⟩ := by
  decide +kernel

end Calculator
