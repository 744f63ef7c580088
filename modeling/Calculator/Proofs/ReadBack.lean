/-
  Printed whole numbers read back.

  Problem: a number is printed by the shortest decimal that is nearest to it.  Beyond 2⁵³ these are
  in general not the digits of the number itself, and beyond 2⁶⁴ they are read by another way than
  below.  Show that a printed whole number is read as the number, wherever it lies.

  1. **The interval** — what passes the check `roundsTo` lies between the midpoints to the two
     neighbours, and so the magnitude is the one nearest to it (`nearest_of_roundsTo`).  The gap
     below a power of two is half of the one above it, which makes this more than a matter of steps
     (`Reachable.exists_below`).

  2. **The walk** — `search` ends with a decimal that passes the check, so the magnitude is the
     nearest to it (`nearest_search`); and it does not go past a grid of which the magnitude itself
     is a multiple (`le_search`).

  3. **The crux (`exists_shortest_eq`)** — a whole number is a multiple on the grid of the ones, and
     the walk begins at that grid or at a coarser one.  So the decimal that is found has no places
     behind the point, and the number nearest to what it is worth is the one that was printed.

  4. **Reading** — digits are a literal, whose value is the nearest number however long it is (see
     `Literals`), and a literal alone is an expression (`evaluateWith_of_digits`).
-/
import Calculator.Proofs.Literals
import Calculator.Proofs.Remainder
import Calculator.Binary64.Text

namespace Calculator.Binary64

-- a power that no proof is to compute
attribute [local irreducible] unitInFiner

variable {u v : Nat}

/-- A unit is many of the finer ones. -/
theorem four_mul_pow_lt_unitInFiner : 4 * Nat.pow 10 673 < unitInFiner := by decide +kernel

theorem unitInFiner_pos : 0 < unitInFiner :=
  Nat.lt_of_le_of_lt (Nat.zero_le _) four_mul_pow_lt_unitInFiner

/-! ## The interval -/

/-- Below a magnitude other than zero lies the next one, whose step is the gap between the two. -/
theorem Reachable.exists_below (h : Reachable u) (hpos : 0 < u) :
    ∃ w, Reachable w ∧ 2 ^ gapExponent w = (halfGaps u).1 ∧ w + (halfGaps u).1 = u := by
  have hbound := h.exists_eq.1
  by_cases hedge : gapExponent u ≠ 0 ∧ u = 2 ^ (52 + gapExponent u)
  · -- the step doubles here, and below it is still half as long
    have hbelow : (halfGaps u).1 = 2 ^ (gapExponent u - 1) := congrArg Prod.fst (if_pos hedge)
    obtain ⟨hne, hu⟩ := hedge
    obtain ⟨t, ht⟩ := Nat.exists_eq_succ_of_ne_zero hne
    rw [hbelow, ht, Nat.succ_sub_one]
    have hsum : (2 ^ 53 - 1) * 2 ^ t + 2 ^ t = u := by
      rw [hu, ht, Nat.succ_eq_add_one, Nat.pow_add, ← two_pow_53_mul]
      omega
    exact ⟨_, reachable_mul_pow (by decide) (by omega),
      by rw [gapExponent_mul_pow (by decide) (.inr (by decide))], hsum⟩
  · have hbelow : (halfGaps u).1 = 2 ^ gapExponent u := congrArg Prod.fst (if_neg hedge)
    rw [hbelow]
    have hsignificand := h.significand_mul
    have hlt := significand_lt u
    have hcount : gapExponent u = 0 ∨ 2 ^ 52 ≤ significand u - 1 := by
      rcases le_significand u with hzero | hfull
      · exact .inl hzero
      rcases Nat.lt_or_eq_of_le hfull with hmore | heq
      · exact .inr (Nat.le_pred_of_lt hmore)
      · -- a power of two that is not the edge lies on the grid of the units
        rw [← heq, ← Nat.pow_add] at hsignificand
        refine .inl ?_
        by_contra hne
        exact hedge ⟨hne, hsignificand.symm⟩
    have hone : 1 ≤ significand u := by
      rcases Nat.eq_zero_or_pos (significand u) with hzero | hone
      · rw [hzero, Nat.zero_mul] at hsignificand
        omega
      · exact hone
    have hsum : (significand u - 1) * 2 ^ gapExponent u + 2 ^ gapExponent u = u := by
      rw [← Nat.succ_mul, Nat.succ_eq_add_one, Nat.sub_add_cancel hone]
      exact hsignificand
    exact ⟨_, reachable_mul_pow (by omega) (by omega),
      by rw [gapExponent_mul_pow (by omega) hcount], hsum⟩

/-- Every other reachable magnitude is at least as far away as the gaps tell. -/
theorem Reachable.apart (hu : Reachable u) (hpos : 0 < u) (hv : Reachable v) :
    v = u ∨ v + (halfGaps u).1 ≤ u ∨ u + (halfGaps u).2 ≤ v := by
  rcases Nat.lt_trichotomy v u with hlt | heq | hgt
  · obtain ⟨w, hw, hstep, hsum⟩ := hu.exists_below hpos
    rcases Nat.lt_or_ge w v with hbetween | hge
    · have hle := hw.add_step_le hv hbetween
      rw [hstep] at hle
      omega
    · exact .inr (.inl (by omega))
  · exact .inl heq
  · have habove : (halfGaps u).2 = 2 ^ gapExponent u := by
      simp only [halfGaps]
      split <;> rfl
    rw [habove]
    exact .inr (.inr (hu.add_step_le hv hgt))

/-- The gaps are not empty. -/
theorem halfGaps_pos (u : Nat) : 0 < (halfGaps u).1 ∧ 0 < (halfGaps u).2 := by
  simp only [halfGaps]
  split
  · exact ⟨Nat.two_pow_pos _, Nat.two_pow_pos _⟩
  · exact ⟨Nat.two_pow_pos _, Nat.two_pow_pos _⟩

/-- What rounds to a magnitude lies between the midpoints, and is one of them only if the
    significand is even. -/
theorem between_of_roundsTo {twice : Nat} (h : roundsTo u twice = true) :
    (2 * u - (halfGaps u).1) * unitInFiner ≤ twice ∧
      twice ≤ (2 * u + (halfGaps u).2) * unitInFiner ∧
      (significand u % 2 = 0 ∨ (2 * u - (halfGaps u).1) * unitInFiner < twice ∧
        twice < (2 * u + (halfGaps u).2) * unitInFiner) := by
  simp only [roundsTo] at h
  split at h
  · next heven =>
    obtain ⟨hlow, hhigh⟩ := of_decide_eq_true h
    exact ⟨hlow, hhigh, .inl heven⟩
  · obtain ⟨hlow, hhigh⟩ := of_decide_eq_true h
    exact ⟨Nat.le_of_lt hlow, Nat.le_of_lt hhigh, .inr ⟨hlow, hhigh⟩⟩

/-- **The interval.**  A decimal between the midpoints is rounded to the magnitude. -/
theorem nearest_of_roundsTo {twice : Nat} (hu : Reachable u) (hpos : 0 < u)
    (h : roundsTo u twice = true) : Nearest twice (2 * unitInFiner) u := by
  obtain ⟨hlow, hhigh, hends⟩ := between_of_roundsTo h
  obtain ⟨w, _, _, hsum⟩ := hu.exists_below hpos
  obtain ⟨hbelow, habove⟩ := halfGaps_pos u
  have hapart : ∀ v, Reachable v → v = u ∨
      v * unitInFiner + (halfGaps u).1 * unitInFiner ≤ u * unitInFiner ∨
      u * unitInFiner + (halfGaps u).2 * unitInFiner ≤ v * unitInFiner := by
    intro v hv
    rw [← Nat.add_mul, ← Nat.add_mul]
    exact (hu.apart hpos hv).imp id (Or.imp (Nat.mul_le_mul_right _) (Nat.mul_le_mul_right _))
  have hdouble : ∀ v, v * (2 * unitInFiner) = 2 * (v * unitInFiner) :=
    fun v => Nat.mul_left_comm v 2 unitInFiner
  have hbelow' : 0 < (halfGaps u).1 * unitInFiner := Nat.mul_pos hbelow unitInFiner_pos
  have habove' : 0 < (halfGaps u).2 * unitInFiner := Nat.mul_pos habove unitInFiner_pos
  rw [Nat.sub_mul, Nat.mul_assoc] at hlow hends
  rw [Nat.add_mul, Nat.mul_assoc] at hhigh hends
  refine ⟨hu, fun v hv => ?_, fun v hv hne htie => ?_⟩
  · rw [hdouble, hdouble]
    simp only [Nat.dist]
    rcases hapart v hv with rfl | h | h <;> omega
  · rw [hdouble, hdouble] at htie
    simp only [Nat.dist] at htie
    rcases hapart v hv with rfl | h | h <;> omega

/-- Strictly between the midpoints every decimal rounds to the magnitude. -/
theorem roundsTo_of_between {twice : Nat} (hlow : (2 * u - (halfGaps u).1) * unitInFiner < twice)
    (hhigh : twice < (2 * u + (halfGaps u).2) * unitInFiner) : roundsTo u twice = true := by
  simp only [roundsTo]
  split
  · exact decide_eq_true ⟨Nat.le_of_lt hlow, Nat.le_of_lt hhigh⟩
  · exact decide_eq_true ⟨hlow, hhigh⟩

/-! ## The walk to finer grids -/

/-- A magnitude other than zero rounds to itself. -/
theorem roundsTo_self (hpos : 0 < u) : roundsTo u (2 * (u * unitInFiner)) = true := by
  obtain ⟨hbelow, habove⟩ := halfGaps_pos u
  rw [← Nat.mul_assoc]
  exact roundsTo_of_between (Nat.mul_lt_mul_of_pos_right (by omega) unitInFiner_pos)
    (Nat.mul_lt_mul_of_pos_right (by omega) unitInFiner_pos)

-- from here on only these facts about it count
attribute [local irreducible] roundsTo

/-- A multiple that is taken rounds to the magnitude. -/
theorem roundsTo_of_multiple? {j c : Nat} (h : multiple? u j = some c) :
    roundsTo u (2 * (c * Nat.pow 10 j)) = true := by
  unfold multiple? at h
  dsimp only at h
  generalize u * unitInFiner = value at h
  generalize Nat.pow 10 j = step at h ⊢
  split at h
  · next hlower hupper =>
    cases h
    split
    · exact hlower
    · exact hupper
  · next hlower _ =>
    cases h
    exact hlower
  · next _ hupper =>
    cases h
    exact hupper
  · cases h

theorem search_succ (u j : Nat) :
    search u (j + 1) = match multiple? u (j + 1) with
      | some coefficient => (coefficient, j + 1)
      | none => search u j := rfl

/-- **What the walk ends with** rounds to the magnitude. -/
theorem roundsTo_search (hpos : 0 < u) (n : Nat) :
    roundsTo u (2 * ((search u n).1 * Nat.pow 10 (search u n).2)) = true := by
  induction n with
  | zero =>
    show roundsTo u (2 * (u * unitInFiner * 1)) = true
    rw [Nat.mul_one]
    exact roundsTo_self hpos
  | succ n ih =>
    rw [search_succ]
    split
    · next c hmultiple => exact roundsTo_of_multiple? hmultiple
    · exact ih

/-- The walk does not go past a grid that has a multiple to take. -/
theorem le_search {j : Nat} (h : (multiple? u j).isSome) {n : Nat} (hle : j ≤ n) :
    j ≤ (search u n).2 := by
  induction n with
  | zero => exact Nat.le_trans hle (Nat.zero_le _)
  | succ n ih =>
    rw [search_succ]
    split
    · exact hle
    · next hnone =>
      rcases Nat.lt_or_eq_of_le hle with hlt | rfl
      · exact ih (Nat.le_of_lt_succ hlt)
      · rw [hnone] at h
        cases h

/-- **The magnitude is the nearest** to what the walk ends with. -/
theorem nearest_search (hu : Reachable u) (hpos : 0 < u) (n : Nat) :
    Nearest ((search u n).1 * Nat.pow 10 (search u n).2 * one) (one * unitInFiner) u := by
  have hnearest := nearest_of_roundsTo hu hpos (roundsTo_search hpos n)
  generalize (search u n).1 * Nat.pow 10 (search u n).2 = value at hnearest ⊢
  have hnum : 2 * value * one = value * one * 2 := by rw [Nat.mul_assoc, Nat.mul_comm]
  have hden : 2 * unitInFiner * one = one * unitInFiner * 2 := by
    rw [Nat.mul_assoc, Nat.mul_comm, Nat.mul_comm unitInFiner one]
  rw [← nearest_mul_iff one_pos, hnum, hden] at hnearest
  exact (nearest_mul_iff Nat.two_pos).1 hnearest

/-! ## Whole numbers -/

/-- One is a power of ten in the finer units. -/
theorem one_mul_unitInFiner : one * unitInFiner = Nat.pow 10 1074 := by
  decide +kernel

/-- A coarser grid, from the step of a finer one. -/
theorem pow_add_of_eq {step j : Nat} (h : step = Nat.pow 10 j) (zeros : Nat) :
    Nat.pow 10 (j + zeros) = step * 10 ^ zeros := by
  rw [h]
  exact Nat.pow_add 10 j zeros

/-- A grid of which the magnitude itself is a multiple is not passed by. -/
theorem isSome_multiple? (hpos : 0 < u) {j : Nat} (h : Nat.pow 10 j ∣ u * unitInFiner) :
    (multiple? u j).isSome := by
  unfold multiple?
  dsimp only
  rw [Nat.div_mul_cancel h, roundsTo_self hpos]
  generalize roundsTo u _ = upper
  cases upper <;> rfl

/-- The walk begins at the ones or beyond. -/
theorem le_coarsest (hone : one ≤ u) : 1074 ≤ coarsest u := by
  have hvalue : Nat.pow 10 1074 ≤ u * unitInFiner := by
    rw [← one_mul_unitInFiner]
    exact Nat.mul_le_mul_right _ hone
  have hpow : (Nat.pow 10 1074).log2 = 3567 := by decide +kernel
  have hlog := log2_mono hvalue
  rw [hpow] at hlog
  simp only [coarsest]
  omega

/-- From the ones on, a multiple on the grid is a whole number. -/
theorem nearest_of_whole {c zeros : Nat}
    (h : Nearest (c * Nat.pow 10 (1074 + zeros) * one) (one * unitInFiner) u) :
    Nearest (c * 10 ^ zeros * one) 1 u := by
  have hvalue : c * Nat.pow 10 (1074 + zeros) * one =
      c * 10 ^ zeros * one * (one * unitInFiner) := by
    rw [pow_add_of_eq one_mul_unitInFiner zeros]
    generalize one * unitInFiner = step
    generalize one = one'
    ac_rfl
  have hscaled :
      Nearest (c * 10 ^ zeros * one * (one * unitInFiner)) (1 * (one * unitInFiner)) u := by
    rw [← hvalue, Nat.one_mul]
    exact h
  exact (nearest_mul_iff (Nat.mul_pos one_pos unitInFiner_pos)).1 hscaled

/-- **The shortest decimal of a whole number** has no places behind the point, and what it is worth
    rounds to the number. -/
theorem exists_shortest_eq (h : Representable u) (hwhole : one ∣ u) :
    ∃ c zeros : Nat, shortest u = ⟨c, zeros⟩ ∧ ofNat (c * 10 ^ zeros) = .finite false u h := by
  have hreachable : Reachable u := (representable_iff_reachable.1 h).1
  rcases Nat.eq_zero_or_pos u with rfl | hpos
  · refine ⟨0, 0, if_pos rfl, ofQuotient_eq_finite Nat.one_pos h ?_⟩
    rw [Nat.zero_mul, Nat.zero_mul]
    exact nearest_mul hreachable Nat.one_pos
  -- on the grid of the ones the number itself is a multiple
  have hdvd : Nat.pow 10 1074 ∣ u * unitInFiner := by
    rw [← one_mul_unitInFiner]
    exact Nat.mul_dvd_mul_right hwhole _
  have hstart : 1074 ≤ coarsest u := le_coarsest (Nat.le_of_dvd hpos hwhole)
  have hgrid := le_search (isSome_multiple? hpos hdvd) hstart
  have hsearched := nearest_search hreachable hpos (coarsest u)
  rcases hsearch : search u (coarsest u) with ⟨c, j⟩
  rw [hsearch] at hgrid hsearched
  obtain ⟨zeros, rfl⟩ : ∃ zeros, j = 1074 + zeros := Nat.exists_eq_add_of_le hgrid
  have hnearest := nearest_of_whole hsearched
  refine ⟨c, zeros, ?_, ofQuotient_eq_finite Nat.one_pos h hnearest⟩
  rw [shortest, if_neg hpos.ne', hsearch]
  have hexponent : ((1074 + zeros : Nat) : Int) - 1074 = zeros := by omega
  exact congrArg (Decimal.mk c) hexponent

end Calculator.Binary64

namespace Calculator

open Binary64

/-! ## Digits -/

/-- A decimal without places behind the point is laid out as digits, and these denote it. -/
theorem Decimal.positional_whole (c zeros : Nat) :
    (∀ d ∈ positional ⟨c, zeros⟩, d.isDigit) ∧ positional ⟨c, zeros⟩ ≠ [] ∧
      Text.ofDigits (positional ⟨c, zeros⟩) = c * 10 ^ zeros := by
  have hlayout : positional ⟨c, zeros⟩ = Text.digits c ++ List.replicate zeros '0' := rfl
  rw [hlayout]
  refine ⟨fun d hd => ?_, ?_, ?_⟩
  · rcases List.mem_append.1 hd with hd | hd
    · exact Text.isDigit_of_mem_digits hd
    · rw [List.eq_of_mem_replicate hd]
      rfl
  · exact List.append_ne_nil_of_left_ne_nil (Text.digits_ne_nil c) _
  · have hdigits : Nat.ofDigitChars 10 (Text.digits c) 0 = c := Text.ofDigits_digits c
    rw [Text.ofDigits, Nat.ofDigitChars_append, hdigits, Nat.ofDigitChars_replicate_zero,
      Nat.mul_comm]

/-- A text of digits has the value of the literal that it is. -/
theorem evaluateWith_of_digits {text : String} (hrun : text.toList ≠ [])
    (hdigits : ∀ c ∈ text.toList, c.isDigit) (settings : Settings) :
    evaluateWith settings text = (ofNat (Text.ofDigits text.toList)).checked 0 := by
  have hend : ∀ c ∈ ([] : List Char).head?, ¬ c.isDigit := by
    intro c hc
    cases hc
  have hplaced : Placed.ofText text =
      (Phrase.chain (.term (.chain (.integer (.ofDigits text.toList) 0) .done)) .done).placed := by
    rw [Placed.ofText, ← List.append_nil text.toList, Lexeme.scan_integer hrun hdigits hend,
      List.append_nil, Lexeme.scan]
    rfl
  rw [evaluateWith_eq_eval hplaced (Nat.zero_le _)]
  simp only [Phrase.eval]
  rw [Literal.toBinary64_ofDigits hrun hdigits]
  generalize (ofNat (Text.ofDigits text.toList)).checked 0 = outcome
  cases outcome <;> rfl

/-- **What is printed for a whole number reads back as the number.**  The text of a finite number
    that has no minus sign and is a multiple of one consists of digits, however large the number is;
    and this text has the value that it was printed for, under any settings. -/
theorem evaluateWith_text_of_whole {units : Nat} (h : Representable units) (hwhole : one ∣ units) :
    (finite false units h).text ≠ "" ∧
    (∀ c ∈ (finite false units h).text.toList, c.isDigit) ∧
    ∀ settings, evaluateWith settings (finite false units h).text = .ok (finite false units h) := by
  obtain ⟨c, zeros, hshortest, hvalue⟩ := exists_shortest_eq h hwhole
  obtain ⟨hdigits, hrun, hdenotes⟩ := Decimal.positional_whole c zeros
  have htext : (finite false units h).text.toList = Decimal.positional ⟨c, zeros⟩ := by
    rw [text, textWith, hshortest, String.toList_ofList]
    rfl
  rw [← htext] at hdigits hrun hdenotes
  refine ⟨fun hempty => hrun (by rw [hempty]; rfl), hdigits, fun settings => ?_⟩
  rw [evaluateWith_of_digits hrun hdigits, hdenotes, hvalue]
  rfl

theorem representable_two_pow_64 : Representable (2 ^ 64 * one) :=
  ⟨1, 64 + 1074, by decide, by decide, by decide +kernel⟩

/-- Beyond 64 bits the digits are not those of the number itself, but the shortest to which it is
    the nearest. -/
theorem two_pow_64_reads_back :
    (finite false (2 ^ 64 * one) representable_two_pow_64).text = "18446744073709552000" ∧
      one ∣ 2 ^ 64 * one ∧
      evaluate "18446744073709552000" =
        .ok (finite false (2 ^ 64 * one) representable_two_pow_64) := by
  have htext : (finite false (2 ^ 64 * one) representable_two_pow_64).text =
      "18446744073709552000" := by
    decide +kernel
  have hwhole : one ∣ 2 ^ 64 * one := ⟨2 ^ 64, Nat.mul_comm _ _⟩
  obtain ⟨_, _, hvalue⟩ := evaluateWith_text_of_whole representable_two_pow_64 hwhole
  rw [htext] at hvalue
  exact ⟨htext, hwhole, hvalue {}⟩

end Calculator
