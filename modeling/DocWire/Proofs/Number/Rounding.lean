/-
  DocWire.Proofs.Number.Rounding — what rounding a decimal gives.

  A decimal is a quotient of units, `numerator` by `denominator`, and rounding it is all there is (`ofDecimal_eq`): what
  is decided before any power is formed, from the place of the first digit alone, would come out of rounding as well.
  Of a quotient three things are known. It is in range exactly below 2^1024 - 2^970, half a step past the greatest number
  of the format (`roundQuotient_finite_iff`); that bound itself is a tie, and goes up because the significand below it is
  odd. It is rounded to zero up to half a unit, which is a tie too and goes down (`roundQuotient_eq_zero_iff`). And the
  number it is rounded to is a nearest one of the format (`roundQuotient_nearest`): the multiples of the
  step are numbers, and a number that is none of them lies below 2^52 steps, which the quotient has reached.
-/

import DocWire.Proofs.Number.Binary64
import DocWire.Proofs.Number.Value

namespace DocWire

namespace Magnitude

/-! ## Whole numbers -/

theorem nearestEven_cases (num den : Nat) :
    (nearestEven num den = num / den ∧ 2 * (num % den) ≤ den) ∨
      (nearestEven num den = num / den + 1 ∧ den ≤ 2 * (num % den)) := by
  simp only [nearestEven]
  by_cases hlt : 2 * (num % den) < den
  · rw [if_pos hlt]
    exact .inl ⟨rfl, Nat.le_of_lt hlt⟩
  rw [if_neg hlt]
  by_cases hgt : den < 2 * (num % den)
  · rw [if_pos hgt]
    exact .inr ⟨rfl, Nat.le_of_lt hgt⟩
  · rw [if_neg hgt]
    omega

/-- No whole number is nearer to a quotient. -/
theorem nearestEven_nearest {den : Nat} (hd : 0 < den) (num k : Nat) :
    ((num : Int) - (nearestEven num den * den : Nat)).natAbs ≤ ((num : Int) - (k * den : Nat)).natAbs := by
  have hdiv := Nat.div_add_mod' num den
  have hmod := Nat.mod_lt num hd
  -- a whole number is on one side of the quotient
  have hside : k * den ≤ num / den * den ∨ num / den * den + den ≤ k * den := by
    by_cases hk : k ≤ num / den
    · exact .inl (Nat.mul_le_mul_right den hk)
    · right
      have h := Nat.mul_le_mul_right den (show num / den + 1 ≤ k by omega)
      rwa [Nat.succ_mul] at h
  rcases nearestEven_cases num den with ⟨he, hle⟩ | ⟨he, hle⟩
  · rw [he]
    omega
  · rw [he, Nat.succ_mul]
    omega

/-- A half is rounded down to zero. -/
theorem nearestEven_eq_zero {num den : Nat} (hd : 0 < den) (h : 2 * num ≤ den) : nearestEven num den = 0 := by
  have hlt : num < den := by omega
  simp only [nearestEven, Nat.div_eq_of_lt hlt, Nat.mod_eq_of_lt hlt, Nat.not_lt.mpr h, if_false]
  exact ite_self 0

/-- Half a step past the last odd number is rounded up. -/
theorem nearestEven_lt_iff {den : Nat} (hd : 0 < den) (num : Nat) :
    nearestEven num den < 2 ^ 53 ↔ 2 * num < (2 ^ 54 - 1) * den := by
  have hdiv := Nat.div_add_mod' num den
  have hmod := Nat.mod_lt num hd
  have hcases := nearestEven_cases num den
  by_cases hsmall : num / den + 2 ≤ 2 ^ 53
  · have h := Nat.mul_le_mul_right den hsmall
    rw [Nat.add_mul] at h
    omega
  by_cases hlarge : 2 ^ 53 ≤ num / den
  · have h := Nat.mul_le_mul_right den hlarge
    omega
  have hlast : num / den = 2 ^ 53 - 1 := by omega
  rw [hlast] at hdiv hcases
  by_cases htie : den ≤ 2 * (num % den)
  · have hup : nearestEven num den = 2 ^ 53 := by
      unfold nearestEven
      by_cases hgt : den < 2 * (num % den)
      · simp only [hlast, hgt, Nat.not_lt.mpr htie, if_true, if_false]
        rfl
      · simp only [hlast, hgt, Nat.not_lt.mpr htie, if_false]
        rfl
    omega
  · omega

/-! ## Quotients -/

/-- So many units make a number of the format: a significand of 53 bits, moved by an exponent, and in range. -/
def IsNumber (units : Nat) : Prop :=
  units < overflow ∧ ∃ significand exponent, significand < 2 ^ 53 ∧ units = significand * 2 ^ exponent

theorem le_of_exponentOf {n : Nat} (h : exponentOf n ≠ 0) : 2 ^ (52 + exponentOf n) ≤ n := by
  have hlog : 52 + exponentOf n = n.log2 := by
    unfold exponentOf at h ⊢
    omega
  rw [hlog]
  apply Nat.log2_self_le
  intro h0
  rw [h0] at h
  exact h rfl

/-- The steps of a quotient are at most 2^53. -/
theorem steps_le (num den : Nat) :
    nearestEven num (den * 2 ^ exponentOf (num / den)) ≤ 2 ^ 53 := by
  apply Nat.le_trans (nearestEven_le _ _)
  apply Nat.succ_le_of_lt
  rw [← Nat.div_div_eq_div_mul, Nat.div_lt_iff_lt_mul (Nat.two_pow_pos _), ← Nat.pow_add]
  exact lt_of_log2

theorem roundQuotient_eq_finite {num den units : Nat} (h : roundQuotient num den = .finite units) :
    units = nearestEven num (den * 2 ^ exponentOf (num / den)) * 2 ^ exponentOf (num / den) ∧ units < overflow := by
  simp only [roundQuotient] at h
  split at h
  · rename_i hlt
    cases h
    exact ⟨rfl, hlt⟩
  · cases h

theorem roundQuotient_isNumber {num den units : Nat} (h : roundQuotient num den = .finite units) : IsNumber units := by
  obtain ⟨rfl, hlt⟩ := roundQuotient_eq_finite h
  refine ⟨hlt, ?_⟩
  have hle := steps_le num den
  generalize nearestEven num (den * 2 ^ exponentOf (num / den)) = steps at hle
  by_cases htop : steps = 2 ^ 53
  · refine ⟨2 ^ 52, exponentOf (num / den) + 1, by decide, ?_⟩
    rw [htop, Nat.pow_succ 2 (exponentOf _)]
    omega
  · exact ⟨steps, _, by omega, rfl⟩

/-- A number is a multiple of a step, or below 2^52 steps. -/
theorem IsNumber.grid {units : Nat} (h : IsNumber units) (e : Nat) :
    (∃ k, units = k * 2 ^ e) ∨ (e ≠ 0 ∧ units < 2 ^ 52 * 2 ^ e) := by
  obtain ⟨-, significand, exponent, hs, rfl⟩ := h
  by_cases he : e ≤ exponent
  · left
    refine ⟨significand * 2 ^ (exponent - e), ?_⟩
    rw [Nat.mul_assoc, ← Nat.pow_add, Nat.sub_add_cancel he]
  · right
    refine ⟨by omega, ?_⟩
    calc significand * 2 ^ exponent < 2 ^ 53 * 2 ^ exponent := Nat.mul_lt_mul_of_pos_right hs (Nat.two_pow_pos _)
      _ = 2 ^ 52 * 2 ^ (exponent + 1) := by
        rw [Nat.pow_succ 2 exponent]
        omega
      _ ≤ 2 ^ 52 * 2 ^ e := Nat.mul_le_mul_left _ (Nat.pow_le_pow_right (by decide) (by omega))

/-- No number of the format is nearer to a quotient than the one that it is rounded to. -/
theorem roundQuotient_nearest {num den units : Nat} (hd : 0 < den) (h : roundQuotient num den = .finite units)
    {other : Nat} (ho : IsNumber other) :
    ((num : Int) - (units * den : Nat)).natAbs ≤ ((num : Int) - (other * den : Nat)).natAbs := by
  obtain ⟨rfl, -⟩ := roundQuotient_eq_finite h
  have hreached : exponentOf (num / den) ≠ 0 → 2 ^ (52 + exponentOf (num / den)) ≤ num / den := le_of_exponentOf
  generalize exponentOf (num / den) = e at hreached ⊢
  have hstep : 0 < den * 2 ^ e := Nat.mul_pos hd (Nat.two_pow_pos e)
  have hmove : ∀ k : Nat, k * 2 ^ e * den = k * (den * 2 ^ e) := fun k => by ring
  rw [hmove]
  rcases ho.grid e with ⟨k, rfl⟩ | ⟨he, hlt⟩
  · rw [hmove]
    exact nearestEven_nearest hstep num k
  · have hnearest := nearestEven_nearest hstep num (2 ^ 52)
    have hbelow : other * den < 2 ^ 52 * (den * 2 ^ e) := by
      rw [← hmove]
      exact Nat.mul_lt_mul_of_pos_right hlt hd
    have habove : 2 ^ 52 * (den * 2 ^ e) ≤ num := by
      have h := hreached he
      rw [Nat.le_div_iff_mul_le hd, Nat.pow_add, hmove] at h
      exact h
    omega

theorem le_nearestEven (num den : Nat) : num / den ≤ nearestEven num den := by
  rcases nearestEven_cases num den with ⟨he, -⟩ | ⟨he, -⟩
  · omega
  · omega

/-- With a small exponent the quotient is below 2^53 units of `last`. -/
theorem lt_of_exponent_le {num den e last : Nat} (hd : 0 < den) (hlog : num / den < 2 ^ (53 + e)) (h : e ≤ last) :
    num < 2 ^ 53 * (den * 2 ^ last) := by
  rw [Nat.pow_add, Nat.div_lt_iff_lt_mul hd] at hlog
  have hpow : 2 ^ e ≤ 2 ^ last := Nat.pow_le_pow_right (by decide) h
  have hcomm : 2 ^ 53 * 2 ^ e * den = 2 ^ 53 * (den * 2 ^ e) := by ring
  rw [hcomm] at hlog
  exact Nat.lt_of_lt_of_le hlog (Nat.mul_le_mul_left _ (Nat.mul_le_mul_left _ hpow))

/-- With a large one the quotient has reached 2^54 of them. -/
theorem le_of_exponent_ge {num den e last : Nat} (hd : 0 < den) (hreached : 2 ^ (52 + e) ≤ num / den) (h : last + 2 ≤ e) :
    2 ^ 54 * (den * 2 ^ last) ≤ num := by
  rw [Nat.pow_add, Nat.le_div_iff_mul_le hd] at hreached
  have hpow : 2 ^ (2 + last) ≤ 2 ^ e := Nat.pow_le_pow_right (by decide) (by omega)
  rw [Nat.pow_add] at hpow
  have hnum := Nat.mul_le_mul_right den (Nat.mul_le_mul_left (2 ^ 52) hpow)
  have hcomm : 2 ^ 52 * (2 ^ 2 * 2 ^ last) * den = 2 ^ 54 * (den * 2 ^ last) := by ring
  rw [hcomm] at hnum
  exact Nat.le_trans hnum hreached

/-- Where the greatest exponent is one more than `last`, a quotient is in range below 2^54 - 1 units of `last`. -/
theorem steps_lt_iff {den : Nat} (hd : 0 < den) (num last : Nat) :
    nearestEven num (den * 2 ^ exponentOf (num / den)) * 2 ^ exponentOf (num / den) < 2 ^ 54 * 2 ^ last ↔
      num < (2 ^ 54 - 1) * (den * 2 ^ last) := by
  have hsteps := steps_le num den
  have hlog : num / den < 2 ^ (53 + exponentOf (num / den)) := lt_of_log2
  have hreached : exponentOf (num / den) ≠ 0 → 2 ^ (52 + exponentOf (num / den)) ≤ num / den := le_of_exponentOf
  generalize exponentOf (num / den) = e at hsteps hlog hreached ⊢
  have hstep : 0 < den * 2 ^ e := Nat.mul_pos hd (Nat.two_pow_pos e)
  have hunit : 0 < 2 ^ last := Nat.two_pow_pos last
  have hpos : 0 < den * 2 ^ last := Nat.mul_pos hd hunit
  by_cases hsmall : e ≤ last
  · -- below the greatest exponent nothing is out of range
    have hpow : 2 ^ e ≤ 2 ^ last := Nat.pow_le_pow_right (by decide) hsmall
    have hunits : nearestEven num (den * 2 ^ e) * 2 ^ e ≤ 2 ^ 53 * 2 ^ last := Nat.mul_le_mul hsteps hpow
    have hnum := lt_of_exponent_le hd hlog hsmall
    omega
  by_cases hlarge : last + 2 ≤ e
  · -- past it everything is
    have hpow : 2 ^ (2 + last) ≤ 2 ^ e := Nat.pow_le_pow_right (by decide) (by omega)
    rw [Nat.pow_add] at hpow
    have hfloor : 2 ^ 52 ≤ num / (den * 2 ^ e) := by
      have hquotient := hreached (by omega)
      rw [Nat.pow_add, Nat.le_div_iff_mul_le hd] at hquotient
      rw [Nat.le_div_iff_mul_le hstep, Nat.mul_comm den, ← Nat.mul_assoc]
      exact hquotient
    have hunits := Nat.mul_le_mul (Nat.le_trans hfloor (le_nearestEven _ _)) hpow
    have hnum := le_of_exponent_ge hd (hreached (by omega)) hlarge
    omega
  · have he : e = last + 1 := by omega
    have hpow : 2 ^ e = 2 * 2 ^ last := by rw [he, Nat.pow_succ, Nat.mul_comm]
    have hlast := nearestEven_lt_iff hstep num
    have hunits : nearestEven num (den * 2 ^ e) * 2 ^ e < 2 ^ 54 * 2 ^ last ↔
        nearestEven num (den * 2 ^ e) < 2 ^ 53 := by
      have hsplit : 2 ^ 54 * 2 ^ last = 2 ^ 53 * 2 ^ e := by omega
      rw [hsplit]
      exact Nat.mul_lt_mul_right (Nat.two_pow_pos e)
    have hbound : (2 ^ 54 - 1) * (den * 2 ^ e) = 2 * ((2 ^ 54 - 1) * (den * 2 ^ last)) := by
      rw [hpow]
      ring
    rw [hunits, hlast, hbound]
    omega

theorem overflow_eq : overflow = 2 ^ 54 * 2 ^ 2044 := by decide +kernel

/-- A quotient is in range below 2^1024 - 2^970. -/
theorem roundQuotient_finite_iff {den : Nat} (hd : 0 < den) (num : Nat) :
    (∃ units, roundQuotient num den = .finite units) ↔ num < (2 ^ 54 - 1) * (den * 2 ^ 2044) := by
  rw [← steps_lt_iff hd, ← overflow_eq]
  constructor
  · intro h
    obtain ⟨units, hunits⟩ := h
    obtain ⟨rfl, hlt⟩ := roundQuotient_eq_finite hunits
    exact hlt
  · intro h
    simp only [roundQuotient, Nat.pow_eq, if_pos h, Magnitude.finite.injEq, exists_eq']

/-- Half a unit and less is rounded to zero. -/
theorem roundQuotient_eq_zero_iff {num den : Nat} (hd : 0 < den) : roundQuotient num den = .finite 0 ↔ 2 * num ≤ den := by
  constructor
  · intro h
    obtain ⟨hsteps, -⟩ := roundQuotient_eq_finite h
    have hreached : exponentOf (num / den) ≠ 0 → 2 ^ (52 + exponentOf (num / den)) ≤ num / den := le_of_exponentOf
    generalize exponentOf (num / den) = e at hsteps hreached
    have hnone : nearestEven num (den * 2 ^ e) = 0 := by
      rcases Nat.mul_eq_zero.mp hsteps.symm with hnone | hpow
      · exact hnone
      · exact absurd hpow (Nat.pos_iff_ne_zero.mp (Nat.two_pow_pos e))
    have hdown : num / (den * 2 ^ e) = 0 ∧ 2 * (num % (den * 2 ^ e)) ≤ den * 2 ^ e := by
      rcases nearestEven_cases num (den * 2 ^ e) with ⟨he, hle⟩ | ⟨he, -⟩
      · exact ⟨he.symm.trans hnone, hle⟩
      · exact absurd (he.symm.trans hnone) (Nat.succ_ne_zero _)
    have hdiv := Nat.div_add_mod' num (den * 2 ^ e)
    rw [hdown.1, Nat.zero_mul, Nat.zero_add] at hdiv
    rw [hdiv] at hdown
    by_cases he : e = 0
    · rw [he, Nat.pow_zero, Nat.mul_one] at hdown
      exact hdown.2
    · -- what is rounded in larger steps is not below one of them
      have hle := hreached he
      rw [Nat.le_div_iff_mul_le hd, Nat.pow_add, Nat.mul_assoc, Nat.mul_comm _ den] at hle
      have hpos : 0 < den * 2 ^ e := Nat.mul_pos hd (Nat.two_pow_pos e)
      have hbelow := hdown.2
      omega
  · intro h
    have hfloor : num / den = 0 := Nat.div_eq_of_lt (by omega)
    have hstep : den * Nat.pow 2 (exponentOf 0) = den := Nat.mul_one den
    have hrange : 0 < overflow := by
      rw [overflow_eq]
      positivity
    simp only [roundQuotient, hfloor, hstep, nearestEven_eq_zero hd h, Nat.zero_mul, if_pos hrange]

/-! ## Decimals -/

/-- The units of `m · 10^(-s)` are `numerator m s` by `denominator s`. -/
def numerator (m : Nat) (s : Int) : Nat := m * 10 ^ (-s).toNat * one

def denominator (s : Int) : Nat := 10 ^ s.toNat

theorem denominator_pos (s : Int) : 0 < denominator s := Nat.pow_pos (by decide)

theorem numerator_eq (m : Nat) (s : Int) :
    (numerator m s : ℚ) = |Decimal.value ⟨m, s⟩| * 2 ^ 1074 * denominator s := by
  have hsplit : (10 : ℚ) ^ (-s).toNat = 10 ^ (-s) * 10 ^ s.toNat := by
    rw [← zpow_natCast, ← zpow_natCast, ← zpow_add₀ (by decide)]
    congr 1
    omega
  have hone : one = 2 ^ 1074 := by
    unfold one
    generalize 1074 = n
    rfl
  have hunit : (one : ℚ) = 2 ^ 1074 := by rw [hone, Nat.cast_pow, Nat.cast_ofNat]
  rw [Decimal.abs_value, numerator, denominator, Nat.cast_mul, Nat.cast_mul, Nat.cast_pow, Nat.cast_pow, Nat.cast_ofNat,
    hunit, hsplit, Int.natAbs_natCast]
  generalize (2 : ℚ) ^ 1074 = unit
  ring

theorem numerator_lt_iff (m : Nat) (s : Int) :
    numerator m s < (2 ^ 54 - 1) * (denominator s * 2 ^ 2044) ↔ |Decimal.value ⟨m, s⟩| < 2 ^ 1024 - 2 ^ 970 := by
  have hden : (0 : ℚ) < denominator s := by exact_mod_cast denominator_pos s
  have hunit : (0 : ℚ) < 2 ^ 1074 := by positivity
  have hbound : ((2 ^ 54 - 1 : Nat) : ℚ) * (denominator s * 2 ^ 2044) = (2 ^ 1024 - 2 ^ 970) * 2 ^ 1074 * denominator s := by
    have hlow : (2 : ℚ) ^ 2044 = 2 ^ 970 * 2 ^ 1074 := by rw [← pow_add]
    have hhigh : (2 : ℚ) ^ 1024 = 2 ^ 54 * 2 ^ 970 := by rw [← pow_add]
    rw [hlow, hhigh]
    generalize (2 : ℚ) ^ 1074 = unit
    generalize (2 : ℚ) ^ 970 = half
    push_cast
    ring
  rw [← Nat.cast_lt (α := ℚ), Nat.cast_mul, Nat.cast_mul, Nat.cast_pow, Nat.cast_ofNat, hbound, numerator_eq,
    mul_lt_mul_iff_left₀ hden, mul_lt_mul_iff_left₀ hunit]

theorem roundQuotient_large {m : Nat} {s : Int} (h : 10 ^ (310 : ℤ) ≤ |Decimal.value ⟨m, s⟩|) :
    roundQuotient (numerator m s) (denominator s) = .infinite := by
  have hbound : (2 : ℚ) ^ 1024 - 2 ^ 970 < 10 ^ (310 : ℤ) := by
    have hpow : (2 : ℕ) ^ 1024 ≤ 10 ^ 310 := by decide +kernel
    have hcast : ((2 : ℚ) ^ 1024) ≤ 10 ^ 310 := by exact_mod_cast hpow
    have hpos : (0 : ℚ) < 2 ^ 970 := by positivity
    exact lt_of_lt_of_le (sub_lt_self _ hpos) hcast
  cases hround : roundQuotient (numerator m s) (denominator s) with
  | infinite => rfl
  | finite units =>
    have hlt := (numerator_lt_iff m s).mp ((roundQuotient_finite_iff (denominator_pos s) _).mp ⟨units, hround⟩)
    exact absurd (lt_trans hlt hbound) (not_lt.mpr h)

theorem roundQuotient_small {m : Nat} {s : Int} (h : |Decimal.value ⟨m, s⟩| < 10 ^ (-331 : ℤ)) :
    roundQuotient (numerator m s) (denominator s) = .finite 0 := by
  rw [roundQuotient_eq_zero_iff (denominator_pos s)]
  apply Nat.le_of_lt
  have hbound : (10 : ℚ) ^ (-331 : ℤ) * (2 * 2 ^ 1074) ≤ 1 := by
    have hpow : 2 * (2 : ℕ) ^ 1074 ≤ 10 ^ 331 := by decide +kernel
    have hcast : 2 * (2 : ℚ) ^ 1074 ≤ 10 ^ 331 := by exact_mod_cast hpow
    have hpos : (0 : ℚ) < 10 ^ 331 := by positivity
    rw [zpow_neg, inv_mul_le_iff₀ (by exact_mod_cast hpos), mul_one]
    exact_mod_cast hcast
  have hden : (0 : ℚ) < denominator s := by exact_mod_cast denominator_pos s
  have hunit : (0 : ℚ) < 2 ^ 1074 := by positivity
  rw [← Nat.cast_lt (α := ℚ), Nat.cast_mul, Nat.cast_ofNat, numerator_eq]
  generalize (2 : ℚ) ^ 1074 = unit at hbound hunit ⊢
  generalize (denominator s : ℚ) = den at hden ⊢
  calc 2 * (|Decimal.value ⟨m, s⟩| * unit * den) = |Decimal.value ⟨m, s⟩| * (2 * unit) * den := by ring
    _ < 10 ^ (-331 : ℤ) * (2 * unit) * den := by gcongr
    _ ≤ 1 * den := by gcongr
    _ = den := one_mul den

/-- What is decided from the place of the first digit comes out of rounding as well. -/
theorem ofDecimal_eq (m : Nat) (s : Int) : ofDecimal m s = roundQuotient (numerator m s) (denominator s) := by
  simp only [ofDecimal]
  by_cases hm : m = 0
  · have hnum : numerator m s = 0 := by rw [numerator, hm, Nat.zero_mul, Nat.zero_mul]
    have hden := denominator_pos s
    rw [if_pos hm, (roundQuotient_eq_zero_iff hden).mpr (by omega)]
  rw [if_neg hm]
  have hplace : ∀ k : ℤ, |Decimal.value ⟨m, s⟩| < 10 ^ k ↔ ((Number.digits m).length : ℤ) - s ≤ k :=
    Decimal.abs_value_lt_iff (d := ⟨m, s⟩) (by simpa using hm)
  by_cases htop : ((Number.digits m).length : Int) - s > 310
  · have hlarge := not_lt.mp ((hplace 310).not.mpr (by omega))
    rw [if_pos htop, roundQuotient_large hlarge]
  rw [if_neg htop]
  by_cases hbottom : ((Number.digits m).length : Int) - s < -330
  · have hsmall := (hplace (-331)).mpr (by omega)
    rw [if_pos hbottom, roundQuotient_small hsmall]
  rw [if_neg hbottom]
  by_cases hs : s ≤ 0
  · have hnum : (-s).toNat = s.natAbs := by omega
    have hzero : s.toNat = 0 := by omega
    rw [if_pos hs, numerator, denominator, hnum, hzero]
    rfl
  · have hnum : (-s).toNat = 0 := by omega
    have hnat : s.toNat = s.natAbs := by omega
    rw [if_neg hs, numerator, denominator, hnum, hnat, Nat.pow_zero, Nat.mul_one]
    rfl

/-- A decimal is in range below 2^1024 - 2^970. -/
theorem ofDecimal_finite_iff (m : Nat) (s : Int) :
    (∃ units, ofDecimal m s = .finite units) ↔ |Decimal.value ⟨m, s⟩| < 2 ^ 1024 - 2 ^ 970 := by
  rw [ofDecimal_eq, roundQuotient_finite_iff (denominator_pos s), numerator_lt_iff]

/-- A decimal is rounded to zero up to half a unit, 2^(-1075). -/
theorem ofDecimal_eq_zero_iff (m : Nat) (s : Int) :
    ofDecimal m s = .finite 0 ↔ |Decimal.value ⟨m, s⟩| ≤ 1 / 2 ^ 1075 := by
  have hden : (0 : ℚ) < denominator s := by exact_mod_cast denominator_pos s
  have hunit : (0 : ℚ) < 2 ^ 1074 := by positivity
  have hhalf : (2 : ℚ) ^ 1075 = 2 * 2 ^ 1074 := pow_succ' 2 1074
  rw [ofDecimal_eq, roundQuotient_eq_zero_iff (denominator_pos s), ← Nat.cast_le (α := ℚ), Nat.cast_mul, Nat.cast_ofNat,
    numerator_eq, hhalf]
  generalize (2 : ℚ) ^ 1074 = unit at hunit ⊢
  generalize (denominator s : ℚ) = den at hden ⊢
  have hproduct : 2 * (|Decimal.value ⟨m, s⟩| * unit * den) = |Decimal.value ⟨m, s⟩| * (2 * unit) * den := by ring
  rw [hproduct, mul_le_iff_le_one_left hden, le_div_iff₀ (mul_pos two_pos hunit)]

theorem distance_eq (m : Nat) (s : Int) (k : Nat) : |(|Decimal.value ⟨m, s⟩|) - k / 2 ^ 1074| =
    (((numerator m s : Int) - (k * denominator s : Nat)).natAbs : ℚ) / (2 ^ 1074 * denominator s) := by
  have hden : (0 : ℚ) < denominator s := by exact_mod_cast denominator_pos s
  have hunit : (0 : ℚ) < 2 ^ 1074 := by positivity
  have hnum := numerator_eq m s
  rw [Nat.cast_natAbs, Int.cast_abs, Int.cast_sub, Int.cast_natCast, Int.cast_natCast, Nat.cast_mul, hnum]
  generalize (2 : ℚ) ^ 1074 = unit at hunit ⊢
  generalize (denominator s : ℚ) = den at hden ⊢
  have hpos : 0 < unit * den := mul_pos hunit hden
  rw [← abs_of_pos hpos, ← abs_div]
  congr 1
  field_simp

/-- No number of the format is nearer to a decimal than the one that it is rounded to. -/
theorem ofDecimal_nearest {m units : Nat} {s : Int} (h : ofDecimal m s = .finite units) {other : Nat}
    (ho : IsNumber other) :
    |(|Decimal.value ⟨m, s⟩|) - units / 2 ^ 1074| ≤ |(|Decimal.value ⟨m, s⟩|) - other / 2 ^ 1074| := by
  rw [ofDecimal_eq] at h
  have hnearest := roundQuotient_nearest (denominator_pos s) h ho
  rw [distance_eq, distance_eq]
  gcongr

end Magnitude

namespace Binary64

/-- A decimal has a finite number of the format below 2^1024 - 2^970. -/
theorem isFinite_iff (d : Decimal) : (ofDecimal d).isFinite = true ↔ |d.value| < 2 ^ 1024 - 2 ^ 970 := by
  have habs : |d.value| = |Decimal.value ⟨d.mantissa.natAbs, d.scale⟩| := by
    rw [Decimal.value_natAbs, abs_abs]
  rw [habs, ← Magnitude.ofDecimal_finite_iff, isFinite, ofDecimal]
  cases Magnitude.ofDecimal d.mantissa.natAbs d.scale with
  | finite units => simp
  | infinite => simp

end Binary64

end DocWire
