/-
  DocWire.Proofs.Field.Near — what may be nearly the same.

  Two decimals are compared as numbers of the format, in units of 2^(-1074). One rounding errs by half a unit, or by one
  part in 2^53 where that is more (`roundQuotient_error`), and a whole number of units errs only relatively. So the
  distance of two decimals is the distance of their numbers but for two roundings (`signed_error`), and what was found
  near was at most 10^(-15) of the larger number but for two more (`near_error`). Together this stays below the
  tolerance doubled, and two units. Two units are within the doubled tolerance of a normal number, not of a smaller one;
  and what is out of range is infinite, where the comparison says nothing of the distance.

  - `nearlySame_bounded`: in range, decimals that are nearly the same are within 2 · 10^(-15) of the larger and two
    units, and without the units where the larger is at least 2^(-1022); which decimals out of range are nearly the same.
-/

import DocWire.Proofs.Field.Limits

namespace DocWire

namespace Magnitude

/-! ## The error of rounding -/

theorem nearestEven_error {den : Nat} (hd : 0 < den) (num : Nat) :
    2 * ((num : Int) - (nearestEven num den * den : Nat)).natAbs ≤ den := by
  have hdiv := Nat.div_add_mod' num den
  have hmod := Nat.mod_lt num hd
  rcases nearestEven_cases num den with ⟨he, hle⟩ | ⟨he, hle⟩
  · rw [he]
    omega
  · rw [he, Nat.add_mul, Nat.one_mul]
    omega

/-- Rounding errs by half a unit at most, or by one part in 2^53. -/
theorem roundQuotient_error {num den units : Nat} (hd : 0 < den) (h : roundQuotient num den = .finite units) :
    2 * ((num : Int) - (units * den : Nat)).natAbs ≤ den ∨ 2 ^ 53 * ((num : Int) - (units * den : Nat)).natAbs ≤ num := by
  obtain ⟨rfl, -⟩ := roundQuotient_eq_finite h
  have hreached : exponentOf (num / den) ≠ 0 → 2 ^ (52 + exponentOf (num / den)) ≤ num / den := le_of_exponentOf
  generalize exponentOf (num / den) = e at hreached ⊢
  have herror := nearestEven_error (Nat.mul_pos hd (Nat.two_pow_pos e)) num
  have hmove : nearestEven num (den * 2 ^ e) * 2 ^ e * den = nearestEven num (den * 2 ^ e) * (den * 2 ^ e) := by ring
  rw [hmove]
  by_cases he : e = 0
  · left
    rw [he, Nat.pow_zero, Nat.mul_one] at herror ⊢
    exact herror
  · right
    have hle := hreached he
    rw [Nat.le_div_iff_mul_le hd, Nat.pow_add, Nat.mul_assoc, Nat.mul_comm _ den] at hle
    omega

theorem roundQuotient_error_div {num den units : Nat} (hd : 0 < den) (h : roundQuotient num den = .finite units) :
    |(num : ℚ) / den - units| ≤ num / den / 2 ^ 53 + 1 / 2 := by
  have hden : (0 : ℚ) < den := by exact_mod_cast hd
  have hpos : (0 : ℚ) ≤ num / den / 2 ^ 53 := by positivity
  have hdistance : |(num : ℚ) / den - units| = (((num : Int) - (units * den : Nat)).natAbs : ℚ) / den := by
    rw [Nat.cast_natAbs, Int.cast_abs, eq_div_iff hden.ne', ← abs_of_pos hden, ← abs_mul, abs_of_pos hden, sub_mul,
      div_mul_cancel₀ _ hden.ne']
    push_cast
    rfl
  rw [hdistance]
  rcases roundQuotient_error hd h with h | h
  · have hcast : 2 * (((num : Int) - (units * den : Nat)).natAbs : ℚ) ≤ den := by exact_mod_cast h
    have hhalf : (((num : Int) - (units * den : Nat)).natAbs : ℚ) / den ≤ 1 / 2 := by
      rw [div_le_iff₀ hden]
      linarith
    linarith
  · have hcast : 2 ^ 53 * (((num : Int) - (units * den : Nat)).natAbs : ℚ) ≤ num := by exact_mod_cast h
    have hpart : (((num : Int) - (units * den : Nat)).natAbs : ℚ) / den ≤ num / den / 2 ^ 53 := by
      rw [div_div, div_le_div_iff₀ hden (by positivity)]
      calc _ = 2 ^ 53 * (((num : Int) - (units * den : Nat)).natAbs : ℚ) * den := by ring
        _ ≤ num * den := by gcongr
    linarith

/-- A whole number of units errs only relatively. -/
theorem roundQuotient_error_whole {num units : Nat} (h : roundQuotient num 1 = .finite units) :
    (num : ℚ) ≤ units + num / 2 ^ 53 := by
  have hle : 2 ^ 53 * num ≤ 2 ^ 53 * units + num := by
    rcases roundQuotient_error Nat.one_pos h with h | h
    · omega
    · omega
  have hcast : 2 ^ 53 * (num : ℚ) ≤ 2 ^ 53 * units + num := by exact_mod_cast hle
  linarith

end Magnitude

namespace Binary64

open Magnitude (one overflow roundQuotient numerator denominator)

/-- So many units with a sign. -/
def signed (negative : Bool) (units : Nat) : ℚ := if negative then -units else units

theorem abs_signed (negative : Bool) (units : Nat) : |signed negative units| = units := by
  cases negative with
  | true => rw [signed, if_pos rfl, abs_neg, Nat.abs_cast]
  | false => rw [signed, if_neg Bool.false_ne_true, Nat.abs_cast]

/-- In units, a decimal is the number that it is rounded to but for the error of rounding. -/
theorem signed_error {d : Decimal} {units : Nat} (h : (ofDecimal d).magnitude = .finite units) :
    |d.value * 2 ^ 1074 - signed (ofDecimal d).negative units| ≤ |d.value| * 2 ^ 1074 / 2 ^ 53 + 1 / 2 := by
  have hround : roundQuotient (numerator d.mantissa.natAbs d.scale) (denominator d.scale) = .finite units := by
    rw [← Magnitude.ofDecimal_eq]
    exact h
  have herror := Magnitude.roundQuotient_error_div (Magnitude.denominator_pos d.scale) hround
  have hden : (0 : ℚ) < denominator d.scale := by exact_mod_cast Magnitude.denominator_pos d.scale
  rw [Magnitude.numerator_eq, Decimal.value_natAbs, abs_abs, mul_div_assoc, div_self hden.ne', mul_one] at herror
  generalize (2 : ℚ) ^ 1074 = unit at herror ⊢
  have hnegative : (ofDecimal d).negative = true ↔ d.value < 0 := Decimal.isNegative_iff
  by_cases hneg : d.value < 0
  · rw [hnegative.mpr hneg, signed, if_pos rfl, ← abs_neg]
    rw [abs_of_neg hneg] at herror ⊢
    have hflip : -(d.value * unit - -units) = -d.value * unit - units := by ring
    rw [hflip]
    exact herror
  · rw [Bool.eq_false_iff.mpr (hnegative.not.mpr hneg), signed, if_neg Bool.false_ne_true]
    rw [abs_of_nonneg (not_lt.mp hneg)] at herror ⊢
    exact herror

theorem signed_sub (m n : Bool) (a b : Nat) :
    |signed m a - signed n b| = ((if m == n then max a b - min a b else a + b : Nat) : ℚ) := by
  have hsame : |(a : ℚ) - b| = ((max a b - min a b : Nat) : ℚ) := by
    rw [Nat.cast_sub min_le_max, Nat.cast_max, Nat.cast_min, max_sub_min_eq_abs, abs_sub_comm]
  have hsum : |(a : ℚ) + b| = ((a + b : Nat) : ℚ) := by
    rw [Nat.cast_add, abs_of_nonneg (by positivity)]
  cases m <;> cases n
  · exact hsame
  · rw [← neg_neg (b : ℚ), ← sub_eq_add_neg] at hsum
    exact hsum
  · have hflip : |-(a : ℚ) - b| = |(a : ℚ) + b| := by rw [← abs_neg, neg_sub, sub_neg_eq_add, add_comm]
    exact hflip.trans hsum
  · have hflip : |-(a : ℚ) - -b| = |(a : ℚ) - b| := by rw [← abs_neg, neg_sub, neg_sub_neg]
    exact hflip.trans hsame

theorem one_pos : 0 < one := by
  unfold one
  generalize 1074 = n
  exact Nat.pow_pos (by decide)

/-- The tolerance is rounded too. -/
theorem tolerance_le : (toleranceUnits : ℚ) / one ≤ (1 + 1 / 2 ^ 53) / 10 ^ 15 := by
  have hunits : toleranceUnits * 10 ^ 15 * 2 ^ 53 ≤ one * (2 ^ 53 + 1) := by decide +kernel
  have hone : (0 : ℚ) < one := by exact_mod_cast one_pos
  have hcast : (toleranceUnits : ℚ) * 10 ^ 15 * 2 ^ 53 ≤ one * (2 ^ 53 + 1) := by exact_mod_cast hunits
  rw [div_le_div_iff₀ hone (by positivity)]
  linarith

/-- What the tolerance allows is in range. -/
theorem tolerated_finite {units : Nat} (h : units < overflow) :
    ∃ allowed, roundQuotient (units * toleranceUnits) one = .finite allowed := by
  rw [Magnitude.roundQuotient_finite_iff one_pos]
  have htolerance : toleranceUnits * 2 ≤ one := by decide +kernel
  have hone := one_pos
  have hlast : 0 < 2 ^ 2044 := by positivity
  rw [Magnitude.overflow_eq] at h
  generalize toleranceUnits = tolerance at htolerance ⊢
  generalize one = unit at htolerance hone ⊢
  generalize 2 ^ 2044 = last at h hlast ⊢
  have hpos : 0 < unit * last := Nat.mul_pos hone hlast
  have hproduct : units * tolerance * 2 ≤ 2 ^ 54 * (unit * last) := by
    calc units * tolerance * 2 = units * (tolerance * 2) := Nat.mul_assoc _ _ _
      _ ≤ 2 ^ 54 * last * unit := Nat.mul_le_mul (Nat.le_of_lt h) htolerance
      _ = 2 ^ 54 * (unit * last) := by ring
  omega

/-- The numbers that are near are as near as the tolerance says, but for two roundings. -/
theorem near_error {x y : Binary64} {a b : Nat} (hx : x.magnitude = .finite a) (hy : y.magnitude = .finite b)
    (ha : a < overflow) (hb : b < overflow) (h : x.near y = true) :
    |signed x.negative a - signed y.negative b| ≤ |signed x.negative a - signed y.negative b| / 2 ^ 53 +
      (max a b : ℚ) * (1 + 1 / 2 ^ 53) ^ 2 / 10 ^ 15 + 1 / 2 := by
  unfold near at h
  rw [hx, hy] at h
  simp only at h
  rw [signed_sub]
  generalize (if x.negative == y.negative then max a b - min a b else a + b) = distance at h ⊢
  obtain ⟨allowed, hallowed⟩ := tolerated_finite (max_lt ha hb)
  rw [hallowed] at h
  cases hdistance : roundQuotient distance 1 with
  | infinite =>
    rw [hdistance] at h
    cases h
  | finite rounded =>
    rw [hdistance] at h
    have hle : rounded ≤ allowed := of_decide_eq_true h
    have hround := Magnitude.roundQuotient_error_whole hdistance
    have htolerated := (abs_le.mp (Magnitude.roundQuotient_error_div one_pos hallowed)).1
    have hcast : (rounded : ℚ) ≤ allowed := by exact_mod_cast hle
    have hmax : ((max a b : Nat) : ℚ) = max (a : ℚ) b := Nat.cast_max a b
    have hpart : ((max a b * toleranceUnits : Nat) : ℚ) / one ≤ (max a b : ℚ) * ((1 + 1 / 2 ^ 53) / 10 ^ 15) := by
      rw [Nat.cast_mul, hmax, mul_div_assoc]
      exact mul_le_mul_of_nonneg_left tolerance_le (le_max_of_le_left (Nat.cast_nonneg a))
    generalize ((max a b * toleranceUnits : Nat) : ℚ) / one = part at htolerated hpart
    have hexpand : (max a b : ℚ) * (1 + 1 / 2 ^ 53) ^ 2 / 10 ^ 15 =
      (max a b : ℚ) * ((1 + 1 / 2 ^ 53) / 10 ^ 15) * (1 + 1 / 2 ^ 53) := by ring
    rw [hexpand]
    linarith

/-- In units, decimals that are rounded to near numbers are near but for a part of the larger one and a few halves. -/
theorem near_bounded {a b : Decimal} {x y : Nat} (hx : (ofDecimal a).magnitude = .finite x)
    (hy : (ofDecimal b).magnitude = .finite y) (h : (ofDecimal a).near (ofDecimal b) = true) :
    |a.value - b.value| * 2 ^ 1074 ≤ 13 / 10 ^ 16 * (max |a.value| |b.value| * 2 ^ 1074) + 8 / 5 := by
  have hdistance := near_error hx hy (Magnitude.ofDecimal_idem hx).2 (Magnitude.ofDecimal_idem hy).2 h
  have ha := signed_error hx
  have hb := signed_error hy
  have hxle := abs_signed (ofDecimal a).negative x
  have hyle := abs_signed (ofDecimal b).negative y
  have hunit : (0 : ℚ) < 2 ^ 1074 := by positivity
  generalize (2 : ℚ) ^ 1074 = unit at ha hb hunit ⊢
  generalize signed (ofDecimal a).negative x = ξ at hdistance ha hxle
  generalize signed (ofDecimal b).negative y = η at hdistance hb hyle
  have hm : max |a.value| |b.value| * unit = max |a.value * unit| |b.value * unit| := by
    rw [abs_mul, abs_mul, abs_of_pos hunit, max_mul_of_nonneg _ _ hunit.le]
  have hd : |a.value - b.value| * unit = |a.value * unit - b.value * unit| := by
    rw [← sub_mul, abs_mul, abs_of_pos hunit]
  have ha' : |a.value| * unit = |a.value * unit| := by rw [abs_mul, abs_of_pos hunit]
  have hb' : |b.value| * unit = |b.value * unit| := by rw [abs_mul, abs_of_pos hunit]
  rw [hm, hd]
  rw [ha'] at ha
  rw [hb'] at hb
  generalize a.value * unit = α at *
  generalize b.value * unit = β at *
  have hα : |α| ≤ max |α| |β| := le_max_left _ _
  have hβ : |β| ≤ max |α| |β| := le_max_right _ _
  -- the numbers are not much larger than the decimals
  have hxm : (x : ℚ) ≤ max |α| |β| + max |α| |β| / 2 ^ 53 + 1 / 2 := by
    have := abs_sub_abs_le_abs_sub ξ α
    rw [abs_sub_comm ξ α] at this
    linarith
  have hym : (y : ℚ) ≤ max |α| |β| + max |α| |β| / 2 ^ 53 + 1 / 2 := by
    have := abs_sub_abs_le_abs_sub η β
    rw [abs_sub_comm η β] at this
    linarith
  have hmax := max_le hxm hym
  have hsplit : |α - β| ≤ |α - ξ| + |ξ - η| + |β - η| := by
    have h₁ := abs_sub_le α ξ β
    have h₂ := abs_sub_le ξ η β
    rw [abs_sub_comm η β] at h₂
    linarith
  generalize max |α| |β| = m at *
  generalize max (x : ℚ) y = larger at *
  have hnonneg : 0 ≤ m := (abs_nonneg α).trans hα
  linarith

end Binary64

namespace Value

/-- A decimal that is rounded to a finite number of the format. -/
def InRange (d : Decimal) : Prop := |d.value| < 2 ^ 1024 - 2 ^ 970

variable {a b : Decimal}

theorem nearlySame_iff : nearlySame (.decimal a) (.decimal b) = true ↔
    a.value = b.value ∨ (Binary64.ofDecimal a).near (Binary64.ofDecimal b) = true := by
  rw [nearlySame, Bool.or_eq_true, Decimal.sameValue_iff]

theorem finite_of_inRange (h : InRange a) : ∃ units, (Binary64.ofDecimal a).magnitude = .finite units := by
  have hfinite := (Binary64.isFinite_iff a).mpr h
  cases hmagnitude : (Binary64.ofDecimal a).magnitude with
  | finite units => exact ⟨units, rfl⟩
  | infinite =>
    rw [Binary64.isFinite, hmagnitude] at hfinite
    cases hfinite

theorem infinite_of_not_inRange (h : ¬ InRange a) : (Binary64.ofDecimal a).magnitude = .infinite := by
  have hinfinite := (Binary64.isFinite_iff a).not.mpr h
  rw [Binary64.isFinite, bne_iff_ne, not_not] at hinfinite
  exact hinfinite

theorem ne_zero_of_not_inRange (h : ¬ InRange a) : a.value ≠ 0 := by
  intro h0
  rw [InRange, h0, abs_zero, sub_pos] at h
  exact h (pow_lt_pow_right₀ one_lt_two (by decide))

/-- Out of range, numbers are near where one of them is finite, and infinite ones where their signs differ. -/
theorem near_outOfRange (h : ¬ (InRange a ∧ InRange b)) :
    (Binary64.ofDecimal a).near (Binary64.ofDecimal b) = true ↔ (InRange a ∨ InRange b) ∨ a.value * b.value < 0 := by
  unfold Binary64.near
  by_cases ha : InRange a
  · obtain ⟨x, hx⟩ := finite_of_inRange ha
    have hb : ¬ InRange b := fun hb => h ⟨ha, hb⟩
    rw [hx, infinite_of_not_inRange hb]
    exact iff_of_true rfl (.inl (.inl ha))
  by_cases hb : InRange b
  · obtain ⟨y, hy⟩ := finite_of_inRange hb
    rw [infinite_of_not_inRange ha, hy]
    exact iff_of_true rfl (.inl (.inr hb))
  rw [infinite_of_not_inRange ha, infinite_of_not_inRange hb]
  have hane := ne_zero_of_not_inRange ha
  have hbne := ne_zero_of_not_inRange hb
  have hasign : (Binary64.ofDecimal a).negative = true ↔ a.value < 0 := Decimal.isNegative_iff
  have hbsign : (Binary64.ofDecimal b).negative = true ↔ b.value < 0 := Decimal.isNegative_iff
  have hdiffer : ((Binary64.ofDecimal a).negative != (Binary64.ofDecimal b).negative) = true ↔
      ¬ (a.value < 0 ↔ b.value < 0) := by
    rw [bne_iff_ne, ne_eq, Bool.eq_iff_iff, hasign, hbsign]
  rw [hdiffer, mul_neg_iff]
  rcases lt_or_gt_of_ne hane with ha0 | ha0
  · rcases lt_or_gt_of_ne hbne with hb0 | hb0
    · simp [ha, hb, ha0, hb0, not_lt.mpr ha0.le, not_lt.mpr hb0.le]
    · simp [ha, hb, ha0, hb0, not_lt.mpr ha0.le, not_lt.mpr hb0.le]
  · rcases lt_or_gt_of_ne hbne with hb0 | hb0
    · simp [ha, hb, ha0, hb0, not_lt.mpr ha0.le, not_lt.mpr hb0.le]
    · simp [ha, hb, ha0, hb0, not_lt.mpr ha0.le, not_lt.mpr hb0.le]

/-- Decimals of one number, or of near ones, are not far apart. -/
theorem distance_le {x y : Nat} (hx : (Binary64.ofDecimal a).magnitude = .finite x)
    (hy : (Binary64.ofDecimal b).magnitude = .finite y) (h : nearlySame (.decimal a) (.decimal b) = true) :
    |a.value - b.value| ≤ 13 / 10 ^ 16 * max |a.value| |b.value| + 8 / 5 / 2 ^ 1074 := by
  have hunit : (0 : ℚ) < 2 ^ 1074 := by positivity
  have hlarger : 0 ≤ max |a.value| |b.value| := le_max_of_le_left (abs_nonneg _)
  rcases nearlySame_iff.mp h with hsame | hnear
  · rw [hsame, sub_self, abs_zero]
    positivity
  · have hbound := Binary64.near_bounded hx hy hnear
    generalize (2 : ℚ) ^ 1074 = unit at hbound hunit ⊢
    rw [← mul_le_mul_iff_left₀ hunit, add_mul, div_mul_cancel₀ _ hunit.ne', mul_assoc]
    exact hbound

/-- Decimals in range that are nearly the same are within twice the tolerance, but for two units that count below the
least normal number only. Out of range every decimal is nearly the same as one in range, and as one of the other sign. -/
theorem nearlySame_bounded (a b : Decimal) :
    (InRange a → InRange b → nearlySame (.decimal a) (.decimal b) = true →
      |a.value - b.value| ≤ 2 / 10 ^ 15 * max |a.value| |b.value| + 2 / 2 ^ 1074 ∧
      (1 / 2 ^ 1022 ≤ max |a.value| |b.value| →
        |a.value - b.value| ≤ 2 / 10 ^ 15 * max |a.value| |b.value|)) ∧
    (¬ (InRange a ∧ InRange b) → (nearlySame (.decimal a) (.decimal b) = true ↔
      a.value = b.value ∨ (InRange a ∨ InRange b) ∨ a.value * b.value < 0)) := by
  refine ⟨?_, ?_⟩
  · intro ha hb h
    obtain ⟨x, hx⟩ := finite_of_inRange ha
    obtain ⟨y, hy⟩ := finite_of_inRange hb
    have hbound := distance_le hx hy h
    have hlarger : 0 ≤ max |a.value| |b.value| := le_max_of_le_left (abs_nonneg _)
    have hunit : (0 : ℚ) < 1 / 2 ^ 1074 := by positivity
    have hnormal : (1 : ℚ) / 2 ^ 1022 = 2 ^ 52 * (1 / 2 ^ 1074) := by
      have hsplit : (2 : ℚ) ^ 1074 = 2 ^ 52 * 2 ^ 1022 := by rw [← pow_add]
      rw [hsplit, mul_one_div, div_mul_cancel_left₀ (by positivity), one_div]
    rw [div_eq_mul_one_div (8 / 5) ((2 : ℚ) ^ 1074)] at hbound
    rw [hnormal, div_eq_mul_one_div 2 ((2 : ℚ) ^ 1074)]
    generalize (1 : ℚ) / 2 ^ 1074 = unit at hbound hunit ⊢
    generalize max |a.value| |b.value| = larger at hbound hlarger ⊢
    refine ⟨by linarith, ?_⟩
    intro hreached
    linarith
  · intro h
    rw [nearlySame_iff, near_outOfRange h]

/-- The noise of a sum of tenths is within the tolerance. -/
theorem nearlySame_bounded_noise :
    nearlySame (.decimal ⟨30000000000000004, 17⟩) (.decimal ⟨3, 1⟩) = true ∧
    |Decimal.value ⟨30000000000000004, 17⟩ - Decimal.value ⟨3, 1⟩| ≤
      2 / 10 ^ 15 * max |Decimal.value ⟨30000000000000004, 17⟩| |Decimal.value ⟨3, 1⟩| := by
  have hnear : nearlySame (.decimal ⟨30000000000000004, 17⟩) (.decimal ⟨3, 1⟩) = true := by decide +kernel
  have hrange : ∀ d : Decimal, (Binary64.ofDecimal d).isFinite = true → InRange d := fun d => (Binary64.isFinite_iff d).mp
  have htenths : Decimal.value ⟨3, 1⟩ = 3 / 10 := by norm_num [Decimal.value]
  have hnormal : 1 / 2 ^ 1022 ≤ max |Decimal.value ⟨30000000000000004, 17⟩| |Decimal.value ⟨3, 1⟩| := by
    calc (1 : ℚ) / 2 ^ 1022 ≤ 1 / 2 ^ 2 := one_div_pow_le_one_div_pow_of_le (by norm_num) (by decide)
      _ ≤ |Decimal.value ⟨3, 1⟩| := by rw [htenths]; norm_num
      _ ≤ _ := le_max_right _ _
  exact ⟨hnear, ((nearlySame_bounded _ _).1 (hrange _ (by decide +kernel)) (hrange _ (by decide +kernel)) hnear).2 hnormal⟩

/-- A number out of range is nearly the same as one, and as its negative; two numbers below the least of the format are
nearly the same although one is twice the other. -/
theorem nearlySame_unbounded :
    (nearlySame (.decimal ⟨1, -400⟩) (.decimal ⟨1, 0⟩) = true ∧
      2 / 10 ^ 15 * max |Decimal.value ⟨1, -400⟩| |Decimal.value ⟨1, 0⟩| <
        |Decimal.value ⟨1, -400⟩ - Decimal.value ⟨1, 0⟩|) ∧
    (nearlySame (.decimal ⟨1, -400⟩) (.decimal ⟨-1, -400⟩) = true ∧
      2 / 10 ^ 15 * max |Decimal.value ⟨1, -400⟩| |Decimal.value ⟨-1, -400⟩| <
        |Decimal.value ⟨1, -400⟩ - Decimal.value ⟨-1, -400⟩|) ∧
    (nearlySame (.decimal ⟨1, 400⟩) (.decimal ⟨2, 400⟩) = true ∧
      2 / 10 ^ 15 * max |Decimal.value ⟨1, 400⟩| |Decimal.value ⟨2, 400⟩| <
        |Decimal.value ⟨1, 400⟩ - Decimal.value ⟨2, 400⟩|) := by
  have hlarge : Decimal.value ⟨1, -400⟩ = 10 ^ (400 : ℤ) := by simp [Decimal.value]
  have hopposite : Decimal.value ⟨-1, -400⟩ = -10 ^ (400 : ℤ) := by simp [Decimal.value]
  have hone : Decimal.value ⟨1, 0⟩ = 1 := by simp [Decimal.value]
  have hsmall : Decimal.value ⟨1, 400⟩ = 10 ^ (-400 : ℤ) := by simp [Decimal.value]
  have htwice : Decimal.value ⟨2, 400⟩ = 2 * 10 ^ (-400 : ℤ) := by simp [Decimal.value]
  rw [hlarge, hopposite, hone, hsmall, htwice]
  have htop : (10 : ℚ) ^ (1 : ℤ) ≤ 10 ^ (400 : ℤ) := zpow_le_zpow_right₀ (by decide) (by decide)
  have hpos := Decimal.ten_zpow_pos (-400)
  generalize (10 : ℚ) ^ (400 : ℤ) = p at htop ⊢
  generalize (10 : ℚ) ^ (-400 : ℤ) = q at hpos ⊢
  rw [zpow_one] at htop
  refine ⟨⟨by decide +kernel, ?_⟩, ⟨by decide +kernel, ?_⟩, ⟨by decide +kernel, ?_⟩⟩
  · rw [abs_of_pos (by linarith : 0 < p), abs_of_pos (by linarith : 0 < p - 1), abs_one, max_eq_left (by linarith)]
    linarith
  · rw [abs_neg, max_self, sub_neg_eq_add, abs_of_pos (by linarith : 0 < p), abs_of_pos (by linarith : 0 < p + p)]
    linarith
  · rw [abs_of_pos hpos, abs_of_pos (by linarith : 0 < 2 * q), abs_sub_comm, abs_of_pos (by linarith : 0 < 2 * q - q),
      max_eq_right (by linarith)]
    linarith

end Value

end DocWire
