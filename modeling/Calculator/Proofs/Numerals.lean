/-
  Every number reads back from its text.

  Problem: results are shown without an exponent and large literals with one, and either text is made
  from the shortest decimal that is nearest to the number.  Show that a reader of either gets the
  number back, whatever it is: with its sign, beyond the finite range, or below one.

  1. **Layouts** — digits, a point, digits and an exponent are read one after the other
     (`decimal?_of_parts`).  The scientific layout has an exponent (`scientific_parts`).  The
     positional one has none, but zeros in front of the digits or behind them (`positional_places`).

  2. **Reach** — a decimal is read exactly only within `decimalReach`.  What is printed for a finite
     number lies in it: with more zeros behind its digits it would be infinite (`search_le`), and with
     fewer digits as far behind the point it would be zero (`lt_search_add_log2`).

  3. **The crux (`ofDecimal_shortest`)** — the walk to finer grids ends with a decimal to which the
     number is the nearest (see `ReadBack`), on whichever side of the point its last digit stands.

  4. **Result (`Shown`)** — a text from which a number is read, and the characters in it.  Both texts
     of every number are such (`shown_text`, `shown_scientificText`).
-/
import Calculator.Proofs.Quotation
import Calculator.Proofs.ReadBack

namespace Calculator

open Text Binary64

/-! ## Digits, point and exponent -/

namespace Binary64

variable {whole fraction rest tail : List Char}

/-- A run of digits ends in front of any other character. -/
theorem not_isDigit_of_mem_head? {c : Char} (h : c.isDigit = false) (rest : List Char) :
    ∀ x ∈ (c :: rest).head?, ¬ x.isDigit := by
  rintro x ⟨⟩
  rw [h]
  exact Bool.false_ne_true

/-- The digits behind a point are taken up to the first character that is none. -/
theorem takeFraction_point (hdigits : ∀ c ∈ fraction, c.isDigit)
    (hrest : ∀ c ∈ rest.head?, ¬ c.isDigit) :
    takeFraction ('.' :: (fraction ++ rest)) = (fraction, rest) := by
  rw [takeFraction, ← Span.run_eq_takeWhile hdigits hrest, ← Span.behind_eq_dropWhile hdigits hrest]

/-- Digits in front are where a text begins. -/
theorem exists_digit_cons (hwhole : whole ≠ []) (hdigits : ∀ c ∈ whole, c.isDigit)
    (tail : List Char) : ∃ c rest, whole ++ tail = c :: rest ∧ c.isDigit := by
  obtain ⟨c, more, rfl⟩ := List.exists_cons_of_ne_nil hwhole
  exact ⟨c, more ++ tail, rfl, hdigits c List.mem_cons_self⟩

/-- **The parts of a decimal** are read one after the other. -/
theorem decimal?_of_parts {exponent : Int} (hwhole : whole ≠ [])
    (hdigits : ∀ c ∈ whole ++ fraction, c.isDigit) (htail : ∀ c ∈ tail.head?, ¬ c.isDigit)
    (hfraction : takeFraction tail = (fraction, rest)) (hexponent : exponent? rest = some exponent) :
    decimal? (whole ++ tail) =
      some ⟨ofDigits (whole ++ fraction), exponent - fraction.length⟩ := by
  have hrun : whole ++ fraction ≠ [] := List.append_ne_nil_of_left_ne_nil hwhole fraction
  have hread : run? (whole ++ fraction) = some (ofDigits (whole ++ fraction)) :=
    if_pos ⟨hrun, List.all_eq_true.2 hdigits⟩
  have hleft : ∀ c ∈ whole, c.isDigit := fun c hc => hdigits c (List.mem_append_left _ hc)
  rw [decimal?, ← Span.run_eq_takeWhile hleft htail, ← Span.behind_eq_dropWhile hleft htail,
    hfraction]
  simp [hread, hexponent]

/-- Without an exponent, the places behind the point are counted. -/
theorem decimal?_of_point {k : Nat} (hwhole : whole ≠ [])
    (hdigits : ∀ c ∈ whole ++ fraction, c.isDigit) (hlength : fraction.length = k + 1) :
    decimal? (whole ++ '.' :: fraction) = some ⟨ofDigits (whole ++ fraction), .negSucc k⟩ := by
  have hend : ∀ c ∈ ([] : List Char).head?, ¬ c.isDigit := fun c hc => by cases hc
  have hfraction := takeFraction_point (fun c hc => hdigits c (List.mem_append_right _ hc)) hend
  rw [List.append_nil] at hfraction
  have hexponent : (0 : Int) - fraction.length = .negSucc k := by omega
  rw [decimal?_of_parts hwhole hdigits (not_isDigit_of_mem_head? rfl _) hfraction rfl, hexponent]

/-- Exponents are written in decimal, with a minus sign in front of negative ones. -/
theorem toList_toString_int (n : Int) :
    (toString n).toList = (if n < 0 then ['-'] else []) ++ digits n.natAbs := by
  cases n with
  | ofNat m => exact toList_toString m
  | negSucc m =>
    rw [if_pos (Int.negSucc_lt_zero m), Int.natAbs_negSucc, ← toList_toString]
    show ("-" ++ toString (m + 1)).toList = _
    rw [String.toList_append]
    rfl

/-- **An exponent is read** as it is written. -/
theorem exponent?_toString (n : Int) : exponent? ('e' :: (toString n).toList) = some n := by
  obtain ⟨c, more, hcons⟩ := List.exists_cons_of_ne_nil (digits_ne_nil n.natAbs)
  have hdigit : c.isDigit := isDigit_of_mem_digits (hcons ▸ List.mem_cons_self)
  have hrun : run? (digits n.natAbs) = some n.natAbs := by
    rw [run?, if_pos ⟨digits_ne_nil _, List.all_eq_true.2 fun c hc => isDigit_of_mem_digits hc⟩,
      ofDigits_digits]
  rw [exponent?, if_pos (.inl rfl), toList_toString_int]
  by_cases hnegative : n < 0
  · rw [if_pos hnegative, List.singleton_append, takeSign]
    simp only [hrun]
    show some (-(n.natAbs : Int)) = some n
    congr 1
    omega
  · rw [if_neg hnegative, List.nil_append, hcons, takeSign_of_isDigit hdigit, ← hcons]
    simp only [hrun]
    show some (n.natAbs : Int) = some n
    congr 1
    omega

end Binary64

/-! ## Layouts -/

/-- Zeros in front do not count, however many there are. -/
theorem Text.ofDigits_zeros (n : Nat) (run : List Char) :
    ofDigits (List.replicate n '0' ++ run) = ofDigits run := by
  induction n with
  | zero => rfl
  | succ n ih => rw [List.replicate_succ, List.cons_append, ofDigits_cons_zero, ih]

namespace Decimal

/-- The scientific layout has one digit, the others behind a point if there are any, and the exponent.
    -/
theorem scientific_parts (d : Decimal) :
    ∃ c more, digits d.coefficient = c :: more ∧
      d.scientific = [c] ++ ((if more = [] then [] else '.' :: more) ++
        'e' :: (toString (d.exponent + more.length)).toList) := by
  obtain ⟨c, more, hcons⟩ := List.exists_cons_of_ne_nil (digits_ne_nil d.coefficient)
  refine ⟨c, more, hcons, ?_⟩
  simp only [scientific, hcons, List.length_cons, Nat.add_sub_cancel, List.drop_one, List.tail_cons]
  cases more <;> rfl

/-- **The scientific layout is read as the decimal.** -/
theorem decimal?_scientific (d : Decimal) : decimal? d.scientific = some d := by
  obtain ⟨c, more, hcons, hlayout⟩ := d.scientific_parts
  have hdigits : ∀ x ∈ [c] ++ more, x.isDigit := by
    rw [List.singleton_append, ← hcons]
    exact fun x hx => isDigit_of_mem_digits hx
  have hvalue : ofDigits ([c] ++ more) = d.coefficient := by
    rw [List.singleton_append, ← hcons, ofDigits_digits]
  have hexponent := exponent?_toString (d.exponent + more.length)
  generalize (toString (d.exponent + more.length)).toList = exponent at hlayout hexponent
  have hmark : ∀ x ∈ ('e' :: exponent).head?, ¬ x.isDigit := not_isDigit_of_mem_head? rfl exponent
  rw [hlayout]
  split
  · next hnone =>
    subst hnone
    rw [List.nil_append, decimal?_of_parts (List.cons_ne_nil c []) hdigits hmark rfl hexponent,
      hvalue, Int.add_sub_cancel]
  · have hfraction := takeFraction_point (fun x hx => hdigits x (List.mem_append_right _ hx)) hmark
    have hparts := decimal?_of_parts (List.cons_ne_nil c []) hdigits
      (not_isDigit_of_mem_head? rfl _) hfraction hexponent
    rw [hvalue, Int.add_sub_cancel] at hparts
    exact hparts

/-- Where a decimal has places behind the point, the positional layout has its digits in front of the
    point and behind it. -/
theorem positional_places (coefficient k : Nat) :
    ∃ whole fraction, positional ⟨coefficient, .negSucc k⟩ = whole ++ '.' :: fraction ∧
      whole ≠ [] ∧ (∀ x ∈ whole ++ fraction, x.isDigit) ∧ fraction.length = k + 1 ∧
      ofDigits (whole ++ fraction) = coefficient := by
  have hvalue := ofDigits_digits coefficient
  have hdigits : ∀ x ∈ digits coefficient, x.isDigit := fun x hx => isDigit_of_mem_digits hx
  simp only [positional]
  generalize digits coefficient = ds at hvalue hdigits
  split
  · next hlt =>
    refine ⟨_, _, rfl, ?_, ?_, ?_, ?_⟩
    · rw [← List.length_pos_iff, List.length_take]
      omega
    · rw [List.take_append_drop]
      exact hdigits
    · rw [List.length_drop]
      omega
    · rw [List.take_append_drop, hvalue]
  · next hge =>
    refine ⟨['0'], _, rfl, List.cons_ne_nil _ _, ?_, ?_, ?_⟩
    · intro x hx
      simp only [List.mem_append, List.mem_singleton, List.mem_replicate] at hx
      rcases hx with rfl | ⟨_, rfl⟩ | hx
      · rfl
      · rfl
      · exact hdigits x hx
    · rw [List.length_append, List.length_replicate]
      omega
    · rw [List.singleton_append, ofDigits_cons_zero, ofDigits_zeros, hvalue]

end Decimal

/-! ## Reach -/

/-- The power of ten of a decimal is not replaced by a lesser one when it is read. -/
def Decimal.InReach (d : Decimal) : Prop :=
  d.exponent ≤ decimalReach ∧ -d.exponent ≤ decimalReach + d.coefficient.log2

namespace Binary64

-- powers that no proof is to compute
attribute [local irreducible] unitInFiner one overflowBound

variable {u : Nat}

/-- The walk goes to finer grids only. -/
theorem search_le (u n : Nat) : (search u n).2 ≤ n := by
  induction n with
  | zero => exact Nat.le_refl 0
  | succ n ih =>
    rw [search_succ]
    split
    · exact Nat.le_refl (n + 1)
    · exact Nat.le_succ_of_le ih

/-- It does not begin far beyond the greatest finite number. -/
theorem coarsest_le (h : u ≤ overflowBound) : coarsest u ≤ 1383 := by
  have hbound : (overflowBound * unitInFiner).log2 = 4591 := by decide +kernel
  have hlog := log2_mono (Nat.mul_le_mul_right unitInFiner h)
  simp only [coarsest]
  omega

/-- What a multiple is worth, from the bits of its coefficient. -/
theorem mul_pow_le (c j : Nat) : c * 10 ^ j ≤ 2 * 10 ^ (c.log2 + j) := by
  calc c * 10 ^ j ≤ 2 ^ (c.log2 + 1) * 10 ^ j :=
        Nat.mul_le_mul_right _ (Nat.le_of_lt Nat.lt_log2_self)
    _ ≤ 2 * 10 ^ c.log2 * 10 ^ j := by
        rw [Nat.pow_succ']
        exact Nat.mul_le_mul_right _ (Nat.mul_le_mul_left 2 (Nat.pow_le_pow_left (by decide) _))
    _ = 2 * 10 ^ (c.log2 + j) := by rw [Nat.mul_assoc, Nat.pow_add]

/-- A bound on multiples of a power of ten holds for the lesser powers too. -/
theorem mul_pow_lt_of_le {k m n bound : Nat} (h : k * Nat.pow 10 m < bound) (hle : n ≤ m) :
    k * 10 ^ n < bound :=
  Nat.lt_of_le_of_lt (Nat.mul_le_mul_left k (Nat.pow_le_pow_right (by decide) hle)) h

/-- Nor does it go on where only few digits are left: half of the least magnitude is more. -/
theorem lt_search_add_log2 (h : Reachable u) (hpos : 0 < u) (n : Nat) :
    673 < (search u n).2 + (search u n).1.log2 := by
  obtain ⟨hlow, _⟩ := between_of_roundsTo (roundsTo_search hpos n)
  obtain ⟨w, _, _, hsum⟩ := h.exists_below hpos
  generalize (search u n).1 = c at hlow ⊢
  generalize (search u n).2 = j at hlow ⊢
  by_contra hle
  have hunit : unitInFiner ≤ (2 * u - (halfGaps u).1) * unitInFiner :=
    Nat.le_mul_of_pos_left unitInFiner (by omega)
  have hvalue : c * Nat.pow 10 j ≤ 2 * 10 ^ (c.log2 + j) := mul_pow_le c j
  have hless : 4 * 10 ^ (c.log2 + j) < unitInFiner :=
    mul_pow_lt_of_le four_mul_pow_lt_unitInFiner (by omega)
  omega

/-- What is printed is what the walk ends with. -/
theorem shortest_eq (hpos : 0 < u) :
    ∃ c j, search u (coarsest u) = (c, j) ∧ shortest u = ⟨c, (j : Int) - 1074⟩ := by
  rcases hsearch : search u (coarsest u) with ⟨c, j⟩
  exact ⟨c, j, rfl, by rw [shortest, if_neg hpos.ne', hsearch]⟩

/-- **What is printed is read exactly.** -/
theorem inReach_shortest (h : Reachable u) : (shortest u).InReach := by
  rcases Nat.eq_zero_or_pos u with rfl | hpos
  · rw [shortest, if_pos rfl]
    exact ⟨by decide, by decide⟩
  obtain ⟨c, j, hsearch, hshortest⟩ := shortest_eq hpos
  have hgreat := Nat.le_trans (search_le u (coarsest u)) (coarsest_le h.exists_eq.1)
  have hsmall := lt_search_add_log2 h hpos (coarsest u)
  rw [hsearch] at hgreat hsmall
  rw [hshortest, Decimal.InReach, decimalReach]
  dsimp only at hgreat hsmall ⊢
  omega

/-- Behind the point, the grid tells how many places there are. -/
theorem nearest_of_places {c j k : Nat} (hk : k + 1 + j = 1074)
    (h : Nearest (c * Nat.pow 10 j * one) (one * unitInFiner) u) :
    Nearest (c * one) (Nat.pow 10 (k + 1)) u := by
  have hgrid : one * unitInFiner = Nat.pow 10 (k + 1) * Nat.pow 10 j := by
    rw [one_mul_unitInFiner, ← hk]
    exact Nat.pow_add 10 (k + 1) j
  rw [hgrid, Nat.mul_right_comm] at h
  exact (nearest_mul_iff (Nat.pow_pos (by decide))).1 h

/-- **The number is the nearest to what is printed for it.** -/
theorem ofDecimal_shortest (h : Representable u) (negative : Bool) :
    ofDecimal negative (shortest u) = .finite negative u h := by
  have hreachable : Reachable u := (representable_iff_reachable.1 h).1
  have hreach := inReach_shortest hreachable
  rcases Nat.eq_zero_or_pos u with rfl | hpos
  · refine ofQuotient_eq_finite Nat.one_pos h ?_
    show Nearest (0 * _ * one) 1 0
    rw [Nat.zero_mul, Nat.zero_mul]
    exact nearest_mul hreachable Nat.one_pos
  obtain ⟨c, j, hsearch, hshortest⟩ := shortest_eq hpos
  have hsearched := nearest_search hreachable hpos (coarsest u)
  rw [hsearch] at hsearched
  rw [hshortest] at hreach ⊢
  obtain ⟨hgreat, hsmall⟩ := hreach
  dsimp only at hgreat hsmall
  rcases Nat.lt_or_ge j 1074 with hlt | hge
  · obtain ⟨k, hk⟩ : ∃ k, k + 1 + j = 1074 := ⟨1073 - j, by omega⟩
    have hexponent : (j : Int) - 1074 = .negSucc k := by omega
    have hmin : min (k + 1) (decimalReach + c.log2) = k + 1 := by omega
    rw [hexponent]
    show ofQuotient negative (c * one) (Nat.pow 10 (min (k + 1) (decimalReach + c.log2))) = _
    rw [hmin]
    exact ofQuotient_eq_finite (Nat.pow_pos (by decide)) h (nearest_of_places hk hsearched)
  · obtain ⟨zeros, rfl⟩ := Nat.exists_eq_add_of_le hge
    have hexponent : ((1074 + zeros : Nat) : Int) - 1074 = zeros := by omega
    have hmin : min zeros decimalReach = zeros := by omega
    rw [hexponent]
    show ofQuotient negative (c * Nat.pow 10 (min zeros decimalReach) * one) 1 = _
    rw [hmin]
    exact ofQuotient_eq_finite Nat.one_pos h (nearest_of_whole hsearched)

end Binary64

/-! ## Texts -/

/-- The marks and letters of numbers and of their names. -/
def Binary64.numeralMarks : List Char := ['-', '.', 'e', 'i', 'n', 'f', 'N', 'a']

/-- How a number stands in a text, with an exponent or without one. -/
structure Binary64.Shown (exponent : Bool) (x : Binary64) (cs : List Char) : Prop where
  /-- It is read as the number. -/
  reads : ofText? cs = some x
  /-- It is in digits, with few other characters. -/
  marks : ∀ c ∈ cs, c.isDigit ∨ c ∈ numeralMarks
  /-- The mark of an exponent stands in it if there is to be one. -/
  exponent_iff : x.isFinite = true → ('e' ∈ cs ↔ exponent = true)

/-- A layout from which a decimal is read, if it is not too great or too small. -/
structure Decimal.Legible (exponent : Bool) (layout : Decimal → List Char) : Prop where
  begins : ∀ d, ∃ c rest, layout d = c :: rest ∧ c.isDigit
  reads : ∀ d : Decimal, d.InReach → ∃ d', decimal? (layout d) = some d' ∧
    ∀ negative, ofDecimal negative d' = ofDecimal negative d
  marks : ∀ d, ∀ c ∈ layout d, c.isDigit ∨ c ∈ numeralMarks
  exponent_iff : ∀ d, 'e' ∈ layout d ↔ exponent = true

namespace Decimal

/-- The positional layout is in digits, with at most a point. -/
theorem isDigit_or_eq_point {d : Decimal} {x : Char} (h : x ∈ positional d) :
    x.isDigit ∨ x = '.' := by
  obtain ⟨c, zeros | k⟩ := d
  · exact .inl ((positional_whole c zeros).1 x h)
  · obtain ⟨whole, fraction, hlayout, _, hdigits, _⟩ := positional_places c k
    rw [hlayout] at h
    simp only [List.mem_append, List.mem_cons] at h hdigits
    rcases h with h | rfl | h
    · exact .inl (hdigits x (.inl h))
    · exact .inr rfl
    · exact .inl (hdigits x (.inr h))

/-- **Without an exponent**, zeros behind the digits stand for the power of ten. -/
theorem legible_positional : Legible false positional where
  begins := by
    rintro ⟨c, zeros | k⟩
    · obtain ⟨hdigits, hrun, _⟩ := positional_whole c zeros
      have hbegins := exists_digit_cons hrun hdigits []
      rw [List.append_nil] at hbegins
      exact hbegins
    · obtain ⟨whole, fraction, hlayout, hwhole, hdigits, _⟩ := positional_places c k
      rw [hlayout]
      exact exists_digit_cons hwhole (fun x hx => hdigits x (List.mem_append_left _ hx)) _
  reads := by
    rintro ⟨c, zeros | k⟩ ⟨hreach, _⟩
    · obtain ⟨hdigits, hrun, hdenotes⟩ := positional_whole c zeros
      refine ⟨_, decimal?_of_digits hrun hdigits, fun negative => ?_⟩
      have hmin : min zeros decimalReach = zeros := Nat.min_eq_left (Int.ofNat_le.1 hreach)
      have hvalue : c * 10 ^ zeros * Nat.pow 10 (min 0 decimalReach) =
          c * Nat.pow 10 (min zeros decimalReach) := by
        rw [hmin, Nat.zero_min]
        exact Nat.mul_one _
      show ofQuotient negative (ofDigits (positional ⟨c, zeros⟩) * _ * one) 1 =
        ofQuotient negative (_ * one) 1
      rw [← hvalue, ← hdenotes]
    · obtain ⟨whole, fraction, hlayout, hwhole, hdigits, hlength, hvalue⟩ := positional_places c k
      rw [hlayout]
      exact ⟨_, decimal?_of_point hwhole hdigits hlength, fun _ => by rw [hvalue]⟩
  marks d x hx := (isDigit_or_eq_point hx).imp id (by rintro rfl; decide)
  exponent_iff d := by
    have hnone : 'e' ∉ positional d := fun hx => absurd (isDigit_or_eq_point hx) (by decide)
    simp [hnone]

/-- **With an exponent** nothing has to be filled up. -/
theorem legible_scientific : Legible true scientific where
  begins d := by
    obtain ⟨c, more, hcons, hlayout⟩ := d.scientific_parts
    rw [hlayout]
    exact ⟨c, _, rfl, isDigit_of_mem_digits (hcons ▸ List.mem_cons_self)⟩
  reads d _ := ⟨d, decimal?_scientific d, fun _ => rfl⟩
  marks d x hx := by
    obtain ⟨c, more, hcons, hlayout⟩ := d.scientific_parts
    have hdigits : ∀ x ∈ c :: more, x.isDigit := by
      rw [← hcons]
      exact fun x hx => isDigit_of_mem_digits hx
    rw [hlayout, toList_toString_int] at hx
    simp only [List.mem_append, List.mem_cons, List.not_mem_nil, or_false] at hx hdigits
    rcases hx with rfl | hx | rfl | hx | hx
    · exact .inl (hdigits x (.inl rfl))
    · split at hx
      · cases hx
      · rcases List.mem_cons.1 hx with rfl | hx
        · exact .inr (by decide)
        · exact .inl (hdigits x (.inr hx))
    · exact .inr (by decide)
    · split at hx
      · rw [List.mem_singleton.1 hx]
        exact .inr (by decide)
      · cases hx
    · exact .inl (isDigit_of_mem_digits hx)
  exponent_iff d := by
    simp [scientific]

end Decimal

namespace Binary64

/-- **A number reads back from its text**, if the layout can be read. -/
theorem shown_textWith {exponent : Bool} {layout : Decimal → List Char}
    (h : Decimal.Legible exponent layout) (x : Binary64) :
    Shown exponent x (x.textWith layout).toList := by
  rcases x with ⟨negative, units, hunits⟩ | negative | _
  · obtain ⟨c, rest, hcons, hdigit⟩ := h.begins (shortest units)
    obtain ⟨d, hdecimal, hvalue⟩ :=
      h.reads _ (inReach_shortest (representable_iff_reachable.1 hunits).1)
    rw [textWith, String.toList_ofList]
    refine ⟨?_, fun x hx => ?_, fun _ => ?_⟩
    · rw [hcons] at hdecimal ⊢
      rw [ofText?_of_decimal? hdigit hdecimal, hvalue, ofDecimal_shortest hunits]
    · rcases List.mem_append.1 hx with hx | hx
      · split at hx
        · rw [List.mem_singleton.1 hx]
          exact .inr (by decide)
        · cases hx
      · exact h.marks _ x hx
    · rw [List.mem_append, ← h.exponent_iff (shortest units)]
      cases negative <;> simp
  · have hname : Shown exponent (infinite negative) (if negative then "-inf" else "inf").toList := by
      have hmarks : (if negative then "-inf" else "inf").toList ⊆ numeralMarks := by
        cases negative <;> decide
      refine ⟨?_, fun c hc => .inr (hmarks hc), fun hfinite => by cases hfinite⟩
      cases negative <;> decide +kernel
    exact hname
  · have hname : Shown exponent nan "NaN".toList := by
      have hmarks : "NaN".toList ⊆ numeralMarks := by decide
      exact ⟨by decide +kernel, fun c hc => .inr (hmarks hc), fun hfinite => by cases hfinite⟩
    exact hname

/-- **Results** have no exponent. -/
theorem shown_text (x : Binary64) : Shown false x x.text.toList :=
  shown_textWith Decimal.legible_positional x

/-- **Large literals** have one. -/
theorem shown_scientificText (x : Binary64) : Shown true x x.scientificText.toList :=
  shown_textWith Decimal.legible_scientific x

variable {exponent : Bool} {x y : Binary64} {cs : List Char}

/-- What shows a number shows no other one. -/
theorem Shown.unique (h : Shown exponent x cs) (h' : Shown exponent y cs) : x = y :=
  Option.some_inj.1 (h.reads.symm.trans h'.reads)

/-- No other character stands in it. -/
theorem Shown.not_mem {c : Char} (h : Shown exponent x cs) (hdigit : c.isDigit = false)
    (hmark : c ∉ numeralMarks) : c ∉ cs := by
  intro hc
  rcases h.marks c hc with hc | hc
  · rw [hdigit] at hc
    cases hc
  · exact hmark hc

end Binary64

end Calculator
