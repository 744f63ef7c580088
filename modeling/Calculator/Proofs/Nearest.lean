/-
  Rounding is to the nearest.

  Problem: a quotient is rounded by looking at the bits of its whole part.  Say what it is to be
  rounded to without them: of all magnitudes the nearest, and of two equally near ones the one with
  the even significand.

  1. **Magnitudes** — `Reachable`: those of the finite numbers, and the bound of the finite range,
     at which infinity stands.  Each of them is its significand on the grid of its own step
     (`Reachable.significand_mul`).

  2. **Neighbours** — the next magnitude is one step away (`Reachable.add_step`), and none lies
     between (`Reachable.add_step_le`).  The significands of neighbours are even and odd in turn,
     also where the step doubles.

  3. **Specification** — `Nearest` for magnitudes, `IsNearest` for numbers with their sign.  Two
     nearest magnitudes would be neighbours, and both significands even; so there is one
     (`Nearest.unique`), and what has been shown to be nearest is what rounding gives.

  4. **The crux (`nearest_of_between`)** — a quotient lies between a magnitude and the next one, and
     every other magnitude lies beyond one of the two.  What rounding cuts a quotient off to is that
     magnitude (`roundUnits_eq`).

  5. **Results** — a rounded quotient is the nearest number (`isNearest_ofQuotient`), and infinite
     from halfway between the greatest finite magnitude and the bound on
     (`ofQuotient_eq_infinite_iff`).
-/
import Mathlib.Data.Nat.Dist
import Calculator.Binary64.Rounding

namespace Calculator.Binary64

-- a power of two that no proof is to compute
attribute [local irreducible] overflowBound

/-! ## Magnitudes -/

/-- The magnitudes that a result can be rounded to: those of finite numbers, and the bound of the
    finite range, at which infinity stands. -/
def Reachable (units : Nat) : Prop := Representable units ∨ units = overflowBound

/-- What a magnitude counts on the grid of its own step. -/
def significand (units : Nat) : Nat := units / 2 ^ gapExponent units

/-- The step of the coarsest grid in the finite range, as a power of two.  It is irreducible, so
    that no proof computes that power. -/
@[irreducible] def greatestGap : Nat := 2045

theorem greatestGap_eq : greatestGap = 2045 := by rw [greatestGap]

/-- The bound of the finite range on the coarsest grid of it. -/
theorem overflowBound_eq : overflowBound = 2 ^ 53 * 2 ^ greatestGap := by
  decide +kernel

/-- The magnitudes of finite numbers are the counts of 53 bits on the grids up to that one. -/
theorem representable_iff {u : Nat} :
    Representable u ↔ ∃ m s, m < 2 ^ 53 ∧ s ≤ greatestGap ∧ u = m * 2 ^ s := by
  rw [greatestGap_eq]
  exact Iff.rfl

/-- A greater number has no fewer bits. -/
theorem log2_mono {u v : Nat} (h : u ≤ v) : u.log2 ≤ v.log2 := by
  rcases Nat.eq_zero_or_pos u with rfl | hu
  · exact Nat.zero_le _
  · exact (Nat.le_log2 (by omega)).2 (Nat.le_trans (Nat.log2_self_le (by omega)) h)

/-- Steps get longer with the magnitudes. -/
theorem gapExponent_mono {u v : Nat} (h : u ≤ v) : gapExponent u ≤ gapExponent v :=
  Nat.sub_le_sub_right (log2_mono h) 52

/-- A count of 53 bits that has all of them, or is taken in units, stands on the grid of its own
    step. -/
theorem gapExponent_mul_pow {m s : Nat} (hm : m < 2 ^ 53) (hs : s = 0 ∨ 2 ^ 52 ≤ m) :
    gapExponent (m * 2 ^ s) = s := by
  rcases Nat.eq_zero_or_pos m with rfl | hpos
  · rw [Nat.zero_mul]
    rcases hs with rfl | hs
    · rfl
    · omega
  have hne : m * 2 ^ s ≠ 0 := Nat.mul_ne_zero (by omega) (Nat.two_pow_pos s).ne'
  have hupper : (m * 2 ^ s).log2 < 53 + s := by
    rw [Nat.log2_lt hne, Nat.pow_add]
    exact Nat.mul_lt_mul_of_pos_right hm (Nat.two_pow_pos s)
  rcases hs with rfl | hm'
  · simp only [gapExponent]
    omega
  · have hlower : 52 + s ≤ (m * 2 ^ s).log2 := by
      rw [Nat.le_log2 hne, Nat.pow_add]
      exact Nat.mul_le_mul_right _ hm'
    simp only [gapExponent]
    omega

theorem significand_mul_pow {m s : Nat} (hm : m < 2 ^ 53) (hs : s = 0 ∨ 2 ^ 52 ≤ m) :
    significand (m * 2 ^ s) = m := by
  rw [significand, gapExponent_mul_pow hm hs, Nat.mul_div_cancel _ (Nat.two_pow_pos s)]

theorem two_pow_53_mul (s : Nat) : 2 ^ 53 * 2 ^ s = 2 ^ 52 * 2 ^ (s + 1) := by
  rw [Nat.pow_succ']
  omega

/-- A reachable magnitude is a count of 53 bits on some grid. -/
theorem Reachable.exists_eq {u : Nat} (h : Reachable u) :
    u ≤ overflowBound ∧ ∃ m s, m < 2 ^ 53 ∧ u = m * 2 ^ s := by
  rcases h with h | rfl
  · obtain ⟨m, s, hm, hs, rfl⟩ := representable_iff.1 h
    refine ⟨?_, m, s, hm, rfl⟩
    rw [overflowBound_eq]
    exact Nat.mul_le_mul (Nat.le_of_lt hm) (Nat.pow_le_pow_right (by decide) hs)
  · refine ⟨Nat.le_refl _, 2 ^ 52, greatestGap + 1, by decide, ?_⟩
    rw [overflowBound_eq, two_pow_53_mul]

/-- Within the bound, every such count is reachable. -/
theorem reachable_mul_pow {m s : Nat} (hm : m < 2 ^ 53) (hle : m * 2 ^ s ≤ overflowBound) :
    Reachable (m * 2 ^ s) := by
  rcases Nat.lt_or_eq_of_le hle with hlt | heq
  · refine .inl ?_
    rcases Nat.le_total s greatestGap with hs | hs
    · exact representable_iff.2 ⟨m, s, hm, hs, rfl⟩
    · -- on the coarsest grid of the range the count is longer, and still short enough
      obtain ⟨t, rfl⟩ := Nat.exists_eq_add_of_le' hs
      rw [Nat.pow_add, ← Nat.mul_assoc] at hlt ⊢
      rw [overflowBound_eq] at hlt
      exact representable_iff.2
        ⟨m * 2 ^ t, greatestGap, Nat.lt_of_mul_lt_mul_right hlt, Nat.le_refl _, rfl⟩
  · exact .inr heq

/-- A reachable magnitude is what it counts on the grid of its own step. -/
theorem Reachable.significand_mul {u : Nat} (h : Reachable u) :
    significand u * 2 ^ gapExponent u = u := by
  obtain ⟨_, m, s, hm, rfl⟩ := h.exists_eq
  -- the grid of its own step is at least as fine as the one on which it is counted
  have hle : gapExponent (m * 2 ^ s) ≤ s := by
    have hlast : gapExponent ((2 ^ 53 - 1) * 2 ^ s) = s :=
      gapExponent_mul_pow (by decide) (.inr (by decide))
    have hmul : m * 2 ^ s ≤ (2 ^ 53 - 1) * 2 ^ s := Nat.mul_le_mul_right _ (Nat.le_pred_of_lt hm)
    exact Nat.le_trans (gapExponent_mono hmul) (Nat.le_of_eq hlast)
  exact Nat.div_mul_cancel (Nat.dvd_mul_left_of_dvd (Nat.pow_dvd_pow 2 hle) m)

theorem significand_lt (u : Nat) : significand u < 2 ^ 53 := div_gap_lt u

/-- All bits are there, unless the grid is that of the units. -/
theorem le_significand (u : Nat) : gapExponent u = 0 ∨ 2 ^ 52 ≤ significand u := by
  by_cases hzero : gapExponent u = 0
  · exact .inl hzero
  · exact .inr (le_div_gap hzero)

/-! ## Neighbours -/

/-- No reachable magnitude lies less than a step above another one. -/
theorem Reachable.add_step_le {u v : Nat} (hu : Reachable u) (hv : Reachable v) (h : u < v) :
    u + 2 ^ gapExponent u ≤ v := by
  have hdvd : 2 ^ gapExponent u ∣ v := by
    rw [← hv.significand_mul]
    exact Nat.dvd_mul_left_of_dvd (Nat.pow_dvd_pow 2 (gapExponent_mono (Nat.le_of_lt h))) _
  have hdvd' : 2 ^ gapExponent u ∣ u := ⟨significand u, by rw [Nat.mul_comm, hu.significand_mul]⟩
  have hdiff := Nat.le_of_dvd (by omega) (Nat.dvd_sub hdvd hdvd')
  omega

/-- A step above a finite magnitude lies a reachable one, whose significand is odd if and only if
    that of the first is even. -/
theorem Reachable.add_step {u : Nat} (h : Reachable u) (hlt : u < overflowBound) :
    Reachable (u + 2 ^ gapExponent u) ∧
      (significand (u + 2 ^ gapExponent u) % 2 = 0 ↔ significand u % 2 = 1) := by
  have hle : u + 2 ^ gapExponent u ≤ overflowBound := h.add_step_le (.inr rfl) hlt
  have hsum : u + 2 ^ gapExponent u = (significand u + 1) * 2 ^ gapExponent u := by
    rw [Nat.add_mul, Nat.one_mul, h.significand_mul]
  have hgap := le_significand u
  have hsignificand := significand_lt u
  rw [hsum] at hle ⊢
  rcases Nat.lt_or_ge (significand u + 1) (2 ^ 53) with hlt | hge
  · refine ⟨reachable_mul_pow hlt hle, ?_⟩
    rw [significand_mul_pow hlt (hgap.imp_right Nat.le_succ_of_le)]
    omega
  · -- all 53 bits are there, and one more makes a power of two
    have hall : significand u + 1 = 2 ^ 53 := by omega
    rw [hall, two_pow_53_mul] at hle ⊢
    refine ⟨reachable_mul_pow (by decide) hle, ?_⟩
    rw [significand_mul_pow (by decide) (.inr (Nat.le_refl _))]
    omega

/-! ## The nearest magnitude -/

/-- `units` is the reachable magnitude nearest to `num / den`, and of two equally near ones the one
    with the even significand. -/
structure Nearest (num den units : Nat) : Prop where
  reachable : Reachable units
  dist_le : ∀ v, Reachable v → Nat.dist (units * den) num ≤ Nat.dist (v * den) num
  even_of_tie : ∀ v, Reachable v → v ≠ units →
    Nat.dist (v * den) num = Nat.dist (units * den) num → significand units % 2 = 0

variable {num den u v : Nat}

/-- Of two nearest magnitudes the greater one would be next to the other, and then one of the two
    significands would be odd. -/
theorem Nearest.not_lt (hden : 0 < den) (hu : Nearest num den u) (hv : Nearest num den v) :
    ¬ u < v := by
  intro hlt
  have hdist : Nat.dist (u * den) num = Nat.dist (v * den) num :=
    Nat.le_antisymm (hu.dist_le v hv.reachable) (hv.dist_le u hu.reachable)
  have hfinite : u < overflowBound := Nat.lt_of_lt_of_le hlt hv.reachable.exists_eq.1
  obtain ⟨hnext, hparity⟩ := hu.reachable.add_step hfinite
  have hstep : 0 < 2 ^ gapExponent u := Nat.two_pow_pos _
  have hle := hu.reachable.add_step_le hv.reachable hlt
  rcases Nat.lt_or_eq_of_le hle with hbetween | hsame
  · -- what lies between two equally near magnitudes is nearer than both
    have hnearer := hu.dist_le _ hnext
    have hlow : u * den < (u + 2 ^ gapExponent u) * den :=
      Nat.mul_lt_mul_of_pos_right (by omega) hden
    have hhigh : (u + 2 ^ gapExponent u) * den < v * den :=
      Nat.mul_lt_mul_of_pos_right hbetween hden
    simp only [Nat.dist] at hdist hnearer
    omega
  · have heven := hu.even_of_tie v hv.reachable (by omega) hdist.symm
    have heven' := hv.even_of_tie u hu.reachable (by omega) hdist
    rw [hsame] at hparity
    omega

/-- **There is one nearest magnitude.** -/
theorem Nearest.unique (hden : 0 < den) (hu : Nearest num den u) (hv : Nearest num den v) :
    u = v :=
  Nat.le_antisymm (Nat.le_of_not_lt (hv.not_lt hden hu)) (Nat.le_of_not_lt (hu.not_lt hden hv))

/-- The nearest magnitude does not decrease as the quotient increases. -/
theorem Nearest.mono {num' : Nat} (hden : 0 < den) (hu : Nearest num den u)
    (hv : Nearest num' den v) (hle : num ≤ num') : u ≤ v := by
  rcases Nat.lt_or_ge v u with hlt | hge
  · -- both quotients lie halfway between the two magnitudes, and so they are the same
    have hsame : num = num' := by
      have hfirst := hu.dist_le v hv.reachable
      have hsecond := hv.dist_le u hu.reachable
      have hmul : v * den < u * den := Nat.mul_lt_mul_of_pos_right hlt hden
      simp only [Nat.dist] at hfirst hsecond
      omega
    subst hsame
    exact Nat.le_of_eq (hu.unique hden hv)
  · exact hge

/-- What is reachable is nearest to itself. -/
theorem nearest_mul (hu : Reachable u) (hden : 0 < den) : Nearest (u * den) den u := by
  refine ⟨hu, fun v _ => ?_, fun v _ hne htie => ?_⟩
  · rw [Nat.dist_self]
    exact Nat.zero_le _
  · rw [Nat.dist_self] at htie
    exact absurd (Nat.eq_of_mul_eq_mul_right hden (Nat.eq_of_dist_eq_zero htie)) hne

/-- The same factor above and below changes nothing. -/
theorem nearest_mul_iff {k : Nat} (hk : 0 < k) :
    Nearest (num * k) (den * k) u ↔ Nearest num den u := by
  have hdist : ∀ v, Nat.dist (v * (den * k)) (num * k) = Nat.dist (v * den) num * k := by
    intro v
    rw [← Nat.mul_assoc, Nat.dist_mul_right]
  constructor
  · intro h
    refine ⟨h.reachable, fun v hv => ?_, fun v hv hne htie => ?_⟩
    · have hle := h.dist_le v hv
      rw [hdist, hdist] at hle
      exact Nat.le_of_mul_le_mul_right hle hk
    · refine h.even_of_tie v hv hne ?_
      rw [hdist, hdist, htie]
  · intro h
    refine ⟨h.reachable, fun v hv => ?_, fun v hv hne htie => ?_⟩
    · rw [hdist, hdist]
      exact Nat.mul_le_mul_right k (h.dist_le v hv)
    · rw [hdist, hdist] at htie
      exact h.even_of_tie v hv hne (Nat.eq_of_mul_eq_mul_right hk htie)

/-! ## The rounded quotient -/

/-- Of the two reachable magnitudes around a quotient the nearer one is nearest of all, and so is
    the one with the even significand if the quotient lies halfway. -/
theorem nearest_of_between (hden : 0 < den) (hu : Reachable u) (hlt : u < overflowBound)
    (hlow : u * den ≤ num) (hhigh : num ≤ (u + 2 ^ gapExponent u) * den) :
    Nearest num den
      (if 2 * (num - u * den) < 2 ^ gapExponent u * den ∨
          2 * (num - u * den) = 2 ^ gapExponent u * den ∧ significand u % 2 = 0 then u
        else u + 2 ^ gapExponent u) := by
  obtain ⟨hnext, hparity⟩ := hu.add_step hlt
  have hsum : (u + 2 ^ gapExponent u) * den = u * den + 2 ^ gapExponent u * den := Nat.add_mul ..
  -- every other reachable magnitude lies beyond one of the two
  have houter : ∀ v, Reachable v → v = u ∨ v = u + 2 ^ gapExponent u ∨ v * den < u * den ∨
      (u + 2 ^ gapExponent u) * den < v * den := by
    intro v hv
    rcases Nat.lt_trichotomy v u with h | h | h
    · exact .inr (.inr (.inl (Nat.mul_lt_mul_of_pos_right h hden)))
    · exact .inl h
    · rcases Nat.lt_or_eq_of_le (hu.add_step_le hv h) with h | h
      · exact .inr (.inr (.inr (Nat.mul_lt_mul_of_pos_right h hden)))
      · exact .inr (.inl h.symm)
  generalize 2 ^ gapExponent u = step at *
  split
  · next hcase =>
    refine ⟨hu, fun v hv => ?_, fun v hv hne htie => ?_⟩
    · simp only [Nat.dist]
      rcases houter v hv with rfl | rfl | h | h <;> omega
    · simp only [Nat.dist] at htie
      rcases houter v hv with rfl | rfl | h | h <;> omega
  · next hcase =>
    refine ⟨hnext, fun v hv => ?_, fun v hv hne htie => ?_⟩
    · simp only [Nat.dist]
      rcases houter v hv with rfl | rfl | h | h <;> omega
    · simp only [Nat.dist] at htie
      rcases houter v hv with rfl | rfl | h | h <;> omega

/-- A quotient, cut off on the grid of its whole part. -/
def cutOff (num den : Nat) : Nat :=
  num / den / 2 ^ gapExponent (num / den) * 2 ^ gapExponent (num / den)

/-- The significand of what a quotient is cut off to has all its bits unless the grid is that of the
    units. -/
theorem significand_cutOff (num den : Nat) :
    gapExponent (cutOff num den) = gapExponent (num / den) ∧
      significand (cutOff num den) = num / den / 2 ^ gapExponent (num / den) := by
  have hcount : num / den / 2 ^ gapExponent (num / den) < 2 ^ 53 := div_gap_lt (num / den)
  have hgap : gapExponent (num / den) = 0 ∨
      2 ^ 52 ≤ num / den / 2 ^ gapExponent (num / den) := le_significand (num / den)
  exact ⟨gapExponent_mul_pow hcount hgap, significand_mul_pow hcount hgap⟩

/-- Cutting off gives up less than a step. -/
theorem cutOff_le (num den : Nat) :
    cutOff num den ≤ num / den ∧ num / den < cutOff num den + 2 ^ gapExponent (num / den) := by
  have hdiv := Nat.div_add_mod (num / den) (2 ^ gapExponent (num / den))
  have hmod := Nat.mod_lt (num / den) (Nat.two_pow_pos (gapExponent (num / den)))
  rw [Nat.mul_comm] at hdiv
  rw [cutOff]
  omega

/-- Rounding takes what a quotient is cut off to, or the next magnitude. -/
theorem roundUnits_eq (num den : Nat) :
    roundUnits num den =
      if 2 * (num - cutOff num den * den) < 2 ^ gapExponent (num / den) * den ∨
          2 * (num - cutOff num den * den) = 2 ^ gapExponent (num / den) * den ∧
            significand (cutOff num den) % 2 = 0 then cutOff num den
        else cutOff num den + 2 ^ gapExponent (num / den) := by
  have hquotient : num / (den * 2 ^ gapExponent (num / den)) =
      num / den / 2 ^ gapExponent (num / den) := (Nat.div_div_eq_div_mul ..).symm
  have hrest : num % (den * 2 ^ gapExponent (num / den)) = num - cutOff num den * den := by
    have hdiv := Nat.div_add_mod num (den * 2 ^ gapExponent (num / den))
    have hmul : den * 2 ^ gapExponent (num / den) * (num / den / 2 ^ gapExponent (num / den)) =
        cutOff num den * den := by
      rw [cutOff, Nat.mul_assoc, Nat.mul_comm]
      congr 1
      exact Nat.mul_comm _ _
    rw [hquotient, hmul] at hdiv
    omega
  have hround : roundUnits num den =
      roundDiv num (den * 2 ^ gapExponent (num / den)) * 2 ^ gapExponent (num / den) := rfl
  rw [hround, roundDiv, hquotient, hrest, (significand_cutOff num den).2,
    Nat.mul_comm (2 ^ gapExponent (num / den)) den]
  split
  · rfl
  · rw [Nat.add_mul, Nat.one_mul]
    rfl

/-- **Rounding within the finite range gives the nearest magnitude.** -/
theorem nearest_roundUnits_of_lt (hden : 0 < den) (hlt : num / den < overflowBound) :
    Nearest num den (roundUnits num den) := by
  obtain ⟨hgap, _⟩ := significand_cutOff num den
  obtain ⟨hle, hcut⟩ := cutOff_le num den
  have hreachable : Reachable (cutOff num den) :=
    reachable_mul_pow (div_gap_lt (num / den)) (Nat.le_trans hle (Nat.le_of_lt hlt))
  have hlow : cutOff num den * den ≤ num :=
    Nat.le_trans (Nat.mul_le_mul_right den hle) (Nat.div_mul_le_self num den)
  have hhigh : num ≤ (cutOff num den + 2 ^ gapExponent (num / den)) * den :=
    Nat.le_of_lt ((Nat.div_lt_iff_lt_mul hden).1 hcut)
  rw [← hgap] at hhigh
  have hnearest := nearest_of_between hden hreachable (Nat.lt_of_le_of_lt hle hlt) hlow hhigh
  rw [hgap, ← roundUnits_eq] at hnearest
  exact hnearest

/-- Beyond the finite range the rounded quotient stays beyond it, and its bound is nearest. -/
theorem nearest_overflowBound (hden : 0 < den) (hle : overflowBound ≤ num / den) :
    overflowBound ≤ roundUnits num den ∧ Nearest num den overflowBound := by
  have hbound : overflowBound * den ≤ num := (Nat.le_div_iff_mul_le hden).1 hle
  refine ⟨?_, .inr rfl, fun v hv => ?_, fun v hv hne htie => ?_⟩
  · have hgap : greatestGap + 1 ≤ gapExponent (num / den) := by
      have hstep : gapExponent overflowBound = greatestGap + 1 := by
        rw [overflowBound_eq, two_pow_53_mul]
        exact gapExponent_mul_pow (by decide) (.inr (Nat.le_refl _))
      exact hstep ▸ gapExponent_mono hle
    have hcut : overflowBound ≤ cutOff num den := by
      rw [overflowBound_eq, two_pow_53_mul]
      exact Nat.mul_le_mul (le_div_gap (by omega)) (Nat.pow_le_pow_right (by decide) hgap)
    rw [roundUnits_eq]
    split
    · exact hcut
    · exact Nat.le_trans hcut (Nat.le_add_right _ _)
  · have hmul : v * den ≤ overflowBound * den := Nat.mul_le_mul_right den hv.exists_eq.1
    simp only [Nat.dist]
    omega
  · have hlt : v < overflowBound := Nat.lt_of_le_of_ne hv.exists_eq.1 hne
    have hmul : v * den < overflowBound * den := Nat.mul_lt_mul_of_pos_right hlt hden
    simp only [Nat.dist] at htie
    omega

/-- **Rounding gives the nearest magnitude**, where all beyond the finite range counts as its bound.
    -/
theorem nearest_roundUnits (hden : 0 < den) :
    Nearest num den (min (roundUnits num den) overflowBound) := by
  rcases Nat.lt_or_ge (num / den) overflowBound with hlt | hge
  · have hnearest := nearest_roundUnits_of_lt hden hlt
    rw [Nat.min_eq_left hnearest.reachable.exists_eq.1]
    exact hnearest
  · obtain ⟨hle, hnearest⟩ := nearest_overflowBound hden hge
    rw [Nat.min_eq_right hle]
    exact hnearest

/-! ## The rounded number -/

/-- The finite magnitudes are the reachable ones below the bound. -/
theorem representable_iff_reachable : Representable u ↔ Reachable u ∧ u < overflowBound := by
  constructor
  · intro h
    obtain ⟨m, s, hm, hs, rfl⟩ := representable_iff.1 h
    refine ⟨.inl h, ?_⟩
    rw [overflowBound_eq]
    exact Nat.mul_lt_mul_of_lt_of_le hm (Nat.pow_le_pow_right (by decide) hs) (Nat.two_pow_pos _)
  · rintro ⟨h | h, hlt⟩
    · exact h
    · omega

/-- The number nearest to `num / den` units, with the given sign in front: the finite one of the
    nearest magnitude, or infinite if that is the bound of the finite range. -/
inductive IsNearest (negative : Bool) (num den : Nat) : Binary64 → Prop where
  | finite {units : Nat} {h : Representable units} (nearest : Nearest num den units) :
    IsNearest negative num den (.finite negative units h)
  | infinite (nearest : Nearest num den overflowBound) :
    IsNearest negative num den (.infinite negative)

/-- **A rounded quotient is the nearest number.** -/
theorem isNearest_ofQuotient (negative : Bool) (hden : 0 < den) :
    IsNearest negative num den (ofQuotient negative num den) := by
  have hnearest : Nearest num den (min (roundUnits num den) overflowBound) :=
    nearest_roundUnits hden
  rw [ofQuotient]
  split
  · next hlt =>
    rw [Nat.min_eq_left (Nat.le_of_lt hlt)] at hnearest
    exact .finite hnearest
  · next hge =>
    rw [Nat.min_eq_right (Nat.le_of_not_lt hge)] at hnearest
    exact .infinite hnearest

/-- A whole number is rounded to the nearest one. -/
theorem isNearest_ofNat (n : Nat) : IsNearest false (n * one) 1 (ofNat n) :=
  isNearest_ofQuotient false Nat.one_pos

/-- The bound of the finite range and a finite magnitude are never both nearest. -/
theorem not_nearest_of_representable (hden : 0 < den) (hu : Representable u)
    (h : Nearest num den overflowBound) : ¬ Nearest num den u := by
  intro hnearest
  have hsame := h.unique hden hnearest
  have hlt := (representable_iff_reachable.1 hu).2
  omega

/-- No other number is. -/
theorem IsNearest.unique {negative : Bool} {x y : Binary64} (hden : 0 < den)
    (hx : IsNearest negative num den x) (hy : IsNearest negative num den y) : x = y := by
  cases hx with
  | @finite u hu hx =>
    cases hy with
    | finite hy =>
      obtain rfl := hx.unique hden hy
      rfl
    | infinite hy => exact absurd hx (not_nearest_of_representable hden hu hy)
  | infinite hx =>
    cases hy with
    | @finite v hv hy => exact absurd hy (not_nearest_of_representable hden hv hx)
    | infinite _ => rfl

/-- A magnitude that is the nearest one is what the quotient is rounded to. -/
theorem ofQuotient_eq_finite {negative : Bool} (hden : 0 < den) (hu : Representable u)
    (h : Nearest num den u) : ofQuotient negative num den = .finite negative u hu :=
  (isNearest_ofQuotient negative hden).unique hden (.finite h)

/-! ## The end of the finite range -/

/-- The greatest finite magnitude lies a step below the bound. -/
theorem exists_greatest : ∃ u, Reachable u ∧ u + 2 ^ greatestGap = overflowBound ∧
    ∀ v, Reachable v → v ≤ u ∨ v = overflowBound := by
  have hsum : (2 ^ 53 - 1) * 2 ^ greatestGap + 2 ^ greatestGap = overflowBound := by
    rw [overflowBound_eq]
    omega
  have hreachable : Reachable ((2 ^ 53 - 1) * 2 ^ greatestGap) :=
    reachable_mul_pow (by decide) (by omega)
  refine ⟨_, hreachable, hsum, fun v hv => ?_⟩
  rcases Nat.lt_or_ge ((2 ^ 53 - 1) * 2 ^ greatestGap) v with hlt | hge
  · have hle := hreachable.add_step_le hv hlt
    rw [gapExponent_mul_pow (by decide) (.inr (by decide)), hsum] at hle
    exact .inr (Nat.le_antisymm hv.exists_eq.1 hle)
  · exact .inl hge

/-- **Beyond the finite range** is what lies halfway between the greatest finite magnitude and the
    bound, or above that. -/
theorem nearest_overflowBound_iff (hden : 0 < den) :
    Nearest num den overflowBound ↔ (2 * overflowBound - 2 ^ greatestGap) * den ≤ 2 * num := by
  obtain ⟨u, hu, hsum, hgreatest⟩ := exists_greatest
  have hmid : 2 * overflowBound - 2 ^ greatestGap = u + overflowBound := by omega
  have hlt : u * den < overflowBound * den :=
    Nat.mul_lt_mul_of_pos_right (hsum ▸ Nat.lt_add_of_pos_right (Nat.two_pow_pos _)) hden
  rw [hmid, Nat.add_mul]
  constructor
  · intro h
    have hdist := h.dist_le u hu
    simp only [Nat.dist] at hdist
    omega
  · intro h
    refine ⟨.inr rfl, fun v hv => ?_, fun v hv hne htie => ?_⟩
    · rcases hgreatest v hv with hle | rfl
      · have hmul : v * den ≤ u * den := Nat.mul_le_mul_right den hle
        simp only [Nat.dist]
        omega
      · exact Nat.le_refl _
    · rw [overflowBound_eq, two_pow_53_mul, significand_mul_pow (by decide) (.inr (Nat.le_refl _))]
      rfl

/-- A rounded quotient is infinite from there on. -/
theorem ofQuotient_eq_infinite_iff {negative : Bool} (hden : 0 < den) :
    ofQuotient negative num den = .infinite negative ↔
      (2 * overflowBound - 2 ^ greatestGap) * den ≤ 2 * num := by
  rw [← nearest_overflowBound_iff hden]
  constructor
  · intro h
    have hnearest : IsNearest negative num den (ofQuotient negative num den) :=
      isNearest_ofQuotient negative hden
    rw [h] at hnearest
    cases hnearest with
    | infinite hbound => exact hbound
  · intro h
    exact (isNearest_ofQuotient negative hden).unique hden (.infinite h)

/-- One is not zero. -/
theorem one_pos : 0 < one := by decide +kernel

/-- Infinite are the numbers from halfway between the greatest finite one and the next power of two
    on. -/
theorem ofNat_eq_infinite_iff (n : Nat) :
    ofNat n = .infinite false ↔ 2 ^ 1024 - 2 ^ 970 ≤ n := by
  have hbound : 2 * overflowBound - 2 ^ greatestGap = (2 ^ 1024 - 2 ^ 970) * (2 * one) := by
    decide +kernel
  rw [ofNat, ofQuotient_eq_infinite_iff Nat.one_pos, hbound, Nat.mul_one, Nat.mul_left_comm 2 n one]
  exact Nat.mul_le_mul_right_iff (Nat.mul_pos Nat.two_pos one_pos)

/-- All smaller ones are finite. -/
theorem isFinite_ofNat_iff (n : Nat) :
    (ofNat n).isFinite = true ↔ n < 2 ^ 1024 - 2 ^ 970 := by
  rw [← not_iff_not, Nat.not_lt, ← ofNat_eq_infinite_iff, ofNat, ofQuotient]
  split <;> simp

/-! ## The order of numbers -/

/-- A magnitude with a sign in front. -/
def signed (negative : Bool) (units : Nat) : Int := if negative then -units else units

/-- The order of numbers.  The two zeros are equal, infinities lie at the ends, and `nan` has no
    place. -/
inductive Le : Binary64 → Binary64 → Prop where
  | finite {a b : Bool} {u v : Nat} {hu : Representable u} {hv : Representable v}
    (h : signed a u ≤ signed b v) : Le (.finite a u hu) (.finite b v hv)
  | bottom {y : Binary64} (h : y ≠ .nan) : Le (.infinite true) y
  | top {x : Binary64} (h : x ≠ .nan) : Le x (.infinite false)

instance : LE Binary64 := ⟨Le⟩

/-- A greater quotient is not rounded to a smaller number. -/
theorem IsNearest.mono {num' : Nat} {x y : Binary64} (hden : 0 < den)
    (hx : IsNearest false num den x) (hy : IsNearest false num' den y) (hle : num ≤ num') :
    x ≤ y := by
  cases hx with
  | finite hx =>
    cases hy with
    | finite hy => exact .finite (Int.ofNat_le.2 (hx.mono hden hy hle))
    | infinite _ => exact .top Binary64.noConfusion
  | infinite hx =>
    cases hy with
    | @finite v hv hy =>
      have hbound := hx.mono hden hy hle
      have hlt := (representable_iff_reachable.1 hv).2
      omega
    | infinite _ => exact .top Binary64.noConfusion

end Calculator.Binary64
