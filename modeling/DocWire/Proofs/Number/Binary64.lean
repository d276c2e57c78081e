/-
  DocWire.Proofs.Number.Binary64 — rounding, and the digits that read back.

  Rounding sees a quotient only: a common factor changes nothing, so neither does a zero that moves from the
  mantissa of a decimal to its scale. What came out of rounding is rounded to itself, because the step it
  was rounded to is never coarser than the one for the result (`step_dvd`). The shortest digits of a
  number are found by trying, so they read back; where none are found the exact expansion stands in, and
  it reads back too.
-/

import DocWire.Number.Binary64
import DocWire.Proofs.Number.Decimal
import Mathlib.Tactic.NormNum

namespace DocWire

namespace Magnitude

/-! ## Rounding -/

theorem nearestEven_mul {k : Nat} (hk : 0 < k) (num den : Nat) :
    nearestEven (k * num) (k * den) = nearestEven num den := by
  have hlt : ∀ a b : Nat, 2 * (k * a) < k * b ↔ 2 * a < b := fun a b => by
    rw [← Nat.mul_assoc, Nat.mul_comm 2, Nat.mul_assoc]
    exact Nat.mul_lt_mul_left hk
  have hgt : ∀ a b : Nat, k * b < 2 * (k * a) ↔ b < 2 * a := fun a b => by
    rw [← Nat.mul_assoc, Nat.mul_comm 2, Nat.mul_assoc]
    exact Nat.mul_lt_mul_left hk
  simp only [nearestEven, Nat.mul_div_mul_left _ _ hk, Nat.mul_mod_mul_left, hlt, hgt]

/-- A common factor changes nothing. -/
theorem roundQuotient_mul {k : Nat} (hk : 0 < k) (num den : Nat) :
    roundQuotient (k * num) (k * den) = roundQuotient num den := by
  simp only [roundQuotient, Nat.mul_div_mul_left _ _ hk, Nat.mul_assoc, nearestEven_mul hk]

theorem nearestEven_of_dvd {num den : Nat} (hd : 0 < den) (h : den ∣ num) : nearestEven num den = num / den := by
  simp [nearestEven, Nat.mod_eq_zero_of_dvd h, hd]

theorem nearestEven_le (num den : Nat) : nearestEven num den ≤ num / den + 1 := by
  unfold nearestEven
  simp only
  split
  · omega
  split
  · omega
  · have := Nat.mod_lt (num / den) (show 0 < 2 by decide)
    omega

/-- A number of at most 2^53 steps is a whole number of its own, possibly coarser, steps. -/
theorem step_dvd {q e : Nat} (hq : q ≤ 2 ^ 53) : 2 ^ exponentOf (q * 2 ^ e) ∣ q * 2 ^ e := by
  rcases Nat.lt_or_eq_of_le hq with hlt | rfl
  · refine Dvd.dvd.mul_left (Nat.pow_dvd_pow 2 ?_) q
    unfold exponentOf
    by_cases h0 : q * 2 ^ e = 0
    · rw [h0, Nat.log2_zero]
      omega
    · have hlog : (q * 2 ^ e).log2 < 53 + e := by
        rw [Nat.log2_lt h0, Nat.pow_add]
        exact Nat.mul_lt_mul_of_pos_right hlt (Nat.two_pow_pos e)
      omega
  · rw [← Nat.pow_add, exponentOf, Nat.log2_two_pow]
    exact Nat.pow_dvd_pow 2 (by omega)

theorem lt_of_log2 {n : Nat} : n < 2 ^ (53 + exponentOf n) := by
  by_cases h0 : n = 0
  · rw [h0]
    exact Nat.two_pow_pos _
  · rw [← Nat.log2_lt h0, exponentOf]
    omega

/-- What came out of rounding is rounded to itself. -/
theorem roundQuotient_idem {num den units : Nat} (h : roundQuotient num den = .finite units) :
    roundQuotient units 1 = .finite units ∧ units < overflow := by
  have hsteps : nearestEven num (den * 2 ^ exponentOf (num / den)) ≤ 2 ^ 53 := by
    refine Nat.le_trans (nearestEven_le _ _) (Nat.succ_le_of_lt ?_)
    rw [← Nat.div_div_eq_div_mul, Nat.div_lt_iff_lt_mul (Nat.two_pow_pos _), ← Nat.pow_add]
    exact lt_of_log2
  simp only [roundQuotient] at h
  split at h
  · rename_i hlt
    cases h
    refine ⟨?_, hlt⟩
    have hdvd := step_dvd (e := exponentOf (num / den)) hsteps
    generalize nearestEven num (den * 2 ^ exponentOf (num / den)) * 2 ^ exponentOf (num / den) = units at hlt hdvd
    simp only [roundQuotient, Nat.pow_eq, Nat.div_one, Nat.one_mul, nearestEven_of_dvd (Nat.two_pow_pos _) hdvd,
      Nat.div_mul_cancel hdvd, hlt, if_true]
  · cases h

/-! ## Decimals -/

/-- A zero may move from the mantissa to the scale. -/
theorem ofDecimal_mul_pow (m z : Nat) (s : Int) : ofDecimal (m * 10 ^ z) s = ofDecimal m (s - z) := by
  by_cases hm : m = 0
  · simp [ofDecimal, hm]
  have hpos : 0 < m := Nat.pos_of_ne_zero hm
  have hpow : 0 < 10 ^ z := by positivity
  have hmul : m * 10 ^ z ≠ 0 := Nat.mul_ne_zero hm (Nat.ne_of_gt hpow)
  have htop : ((Number.digits (m * 10 ^ z)).length : Int) - s = (Number.digits m).length - (s - z) := by
    rw [Number.digits_mul_pow hpos, List.length_append, List.length_replicate]
    push_cast
    ring
  simp only [ofDecimal, Nat.pow_eq, hm, hmul, if_false, htop]
  congr 2
  -- the unit is a large number that nothing here may compute
  generalize one = unit
  by_cases hs : s ≤ 0
  · rw [if_pos hs, if_pos (by omega), Nat.mul_assoc m, ← Nat.pow_add]
    congr 4
    omega
  rw [if_neg hs]
  by_cases hsz : s - z ≤ 0
  · rw [if_pos hsz]
    have hsplit : z = (s - z).natAbs + s.natAbs := by omega
    have hsp : 0 < 10 ^ s.natAbs := by positivity
    rw [← roundQuotient_mul hsp (m * 10 ^ (s - z).natAbs * unit) 1]
    congr 1
    · conv_lhs => rw [hsplit, Nat.pow_add]
      ring
    · ring
  · rw [if_neg hsz]
    have hsplit : s.natAbs = z + (s - z).natAbs := by omega
    rw [← roundQuotient_mul hpow (m * unit) (10 ^ (s - z).natAbs), hsplit, Nat.pow_add]
    congr 1
    ring

theorem ofDecimal_normal (c : Nat) (s : Int) :
    ofDecimal (Decimal.mk c s).normal.mantissa.natAbs (Decimal.mk c s).normal.scale = ofDecimal c s := by
  by_cases hc : c = 0
  · simp [Decimal.normal, hc, ofDecimal]
  obtain ⟨z, -, hm, hs⟩ := Decimal.eq_normal ⟨c, s⟩ (by simpa using hc)
  have habs : c = (Decimal.mk c s).normal.mantissa.natAbs * 10 ^ z := by
    have := congrArg Int.natAbs hm
    rw [Int.natAbs_mul, Int.natAbs_pow] at this
    exact this
  have hscale : s = (Decimal.mk c s).normal.scale + z := hs
  conv_rhs => rw [habs, ofDecimal_mul_pow]
  congr 1
  omega

theorem ofDecimal_idem {m units : Nat} {s : Int} (h : ofDecimal m s = .finite units) :
    roundQuotient units 1 = .finite units ∧ units < overflow := by
  have hzero : roundQuotient 0 1 = .finite 0 := by decide +kernel
  unfold ofDecimal at h
  simp only at h
  split at h
  · cases h
    exact roundQuotient_idem hzero
  split at h
  · cases h
  split at h
  · cases h
    exact roundQuotient_idem hzero
  split at h
  · exact roundQuotient_idem h
  · exact roundQuotient_idem h

/-- What has a value other than zero has its first digit in range. -/
theorem ofDecimal_range {m units : Nat} {s : Int} (h : ofDecimal m s = .finite units) (hu : units ≠ 0) :
    m ≠ 0 ∧ ((Number.digits m).length : Int) - s ≤ 310 ∧ -330 ≤ ((Number.digits m).length : Int) - s := by
  unfold ofDecimal at h
  simp only at h
  split at h
  · cases h
    exact absurd rfl hu
  rename_i hm
  split at h
  · cases h
  split at h
  · cases h
    exact absurd rfl hu
  · exact ⟨hm, by omega, by omega⟩

/-! ## The fewest digits -/

theorem ofDecimal_exact {units : Nat} (h : roundQuotient units 1 = .finite units) (hlt : units < overflow) :
    ofDecimal (units * 5 ^ 1074) 1074 = .finite units := by
  by_cases h0 : units = 0
  · rw [h0, Nat.zero_mul]
    rfl
  have hpos : 0 < units := Nat.pos_of_ne_zero h0
  have hne : units * 5 ^ 1074 ≠ 0 := Nat.mul_ne_zero h0 (by positivity)
  have hlong : (Number.digits (units * 5 ^ 1074)).length ≤ 1384 := by
    rw [Number.length_digits_le_iff (by decide)]
    refine Nat.lt_of_lt_of_le (Nat.mul_lt_mul_of_pos_right hlt (by positivity)) ?_
    decide +kernel
  have hshort : ¬ (Number.digits (units * 5 ^ 1074)).length ≤ 744 := by
    rw [Number.length_digits_le_iff (by decide)]
    have hfive : 10 ^ 744 ≤ 5 ^ 1074 := by decide +kernel
    have := Nat.le_mul_of_pos_left (5 ^ 1074) hpos
    exact Nat.not_lt.mpr (Nat.le_trans hfive this)
  simp only [ofDecimal, hne, if_false]
  clear hne
  generalize (Number.digits (units * 5 ^ 1074)).length = n at hlong hshort ⊢
  rw [if_neg (by omega), if_neg (by omega), if_neg (by decide)]
  have hpow : 0 < 5 ^ 1074 * one := by decide +kernel
  have hten : Nat.pow 10 (1074 : Int).natAbs = 5 ^ 1074 * one * 1 := by decide +kernel
  rw [hten, Nat.mul_assoc, Nat.mul_comm units, roundQuotient_mul hpow, h]

theorem decimalExponent_ge (units : Nat) : -1073 ≤ decimalExponent units := by
  have hone : ∀ n, 1 ≤ (Number.digits n).length := fun n => List.length_pos_iff.mpr (Number.digits_ne_nil n)
  have hbehind : ∀ n, -1073 ≤ ((Number.digits n).length : Int) - 1074 := fun n => by
    have := hone n
    omega
  simp only [decimalExponent]
  split
  · exact hbehind _
  · omega

theorem exact_eq (units : Nat) : exact units = ⟨((units * 5 ^ 1074 : Nat) : Int), 1074⟩ := by
  rw [Nat.cast_mul]
  rfl

/-- The shortest digits are the normal form of some that read back. -/
theorem shortest_candidate {units : Nat} (h : roundQuotient units 1 = .finite units) (hlt : units < overflow) :
    ∃ (c : Nat) (s : Int), shortest units = (Decimal.mk c s).normal ∧ ofDecimal c s = .finite units ∧ s ≤ 1090 := by
  unfold shortest
  cases hfound : (List.range' 1 17).findSome? (withDigits? units) with
  | none => exact ⟨units * 5 ^ 1074, 1074, congrArg Decimal.normal (exact_eq units), ofDecimal_exact h hlt, by decide⟩
  | some d =>
    obtain ⟨count, hcount, hd⟩ := List.exists_of_findSome?_eq_some hfound
    obtain ⟨c', hc', rfl⟩ := Option.map_eq_some_iff.mp hd
    obtain ⟨c, hc, he⟩ := Option.bind_eq_some_iff.mp hc'
    cases he
    have hle : count < 1 + 17 := (List.mem_range'_1.mp hcount).2
    have hge := decimalExponent_ge units
    refine ⟨c, _, rfl, by simpa using List.find?_some hc, ?_⟩
    omega

theorem shortest_nonneg {units : Nat} (h : roundQuotient units 1 = .finite units) (hlt : units < overflow) :
    0 ≤ (shortest units).mantissa := by
  obtain ⟨c, s, hs, -, -⟩ := shortest_candidate h hlt
  rw [hs, Decimal.normal]
  split
  · exact Int.le_refl 0
  · exact Int.ediv_nonneg (Int.natCast_nonneg c) (Int.natCast_nonneg _)

theorem ofDecimal_shortest {units : Nat} (h : roundQuotient units 1 = .finite units) (hlt : units < overflow) :
    ofDecimal (shortest units).mantissa.natAbs (shortest units).scale = .finite units := by
  obtain ⟨c, s, hs, hc, -⟩ := shortest_candidate h hlt
  rw [hs, ofDecimal_normal, hc]

theorem shortest_zero : shortest 0 = ⟨0, 0⟩ := by decide +kernel

/-- Scale and exponent of the shortest digits stay small. -/
theorem shortest_range {units : Nat} (h : roundQuotient units 1 = .finite units) (hlt : units < overflow) :
    (shortest units).scale.natAbs ≤ 1090 ∧
      (((shortest units).digits.length : Int) - 1 - (shortest units).scale).natAbs ≤ 331 := by
  by_cases h0 : units = 0
  · rw [h0, shortest_zero]
    decide +kernel
  obtain ⟨hm, htop, hbottom⟩ := ofDecimal_range (ofDecimal_shortest h hlt) h0
  have hle : (shortest units).scale ≤ 1090 := by
    obtain ⟨c, s, hs, -, hle⟩ := shortest_candidate h hlt
    rw [hs, Decimal.normal]
    split
    · show (0 : Int) ≤ 1090
      decide
    · show s - (Decimal.trailingZeros (Decimal.digits ⟨c, s⟩) : Int) ≤ 1090
      omega
  have hpos : 0 < (shortest units).digits.length := List.length_pos_iff.mpr (Number.digits_ne_nil _)
  simp only [Decimal.digits] at hpos ⊢
  omega

end Magnitude

namespace Binary64

open Number (Digits)

/-- The decimal with the shortest digits of a number. -/
def shortest (negative : Bool) (units : Nat) : Decimal :=
  let d := Magnitude.shortest units
  ⟨if negative then -d.mantissa else d.mantissa, d.scale⟩

/-- The form with an exponent reads back to the shortest digits. -/
theorem read_exponentChars {negative : Bool} {units : Nat} (h : Magnitude.roundQuotient units 1 = .finite units)
    (hlt : units < Magnitude.overflow) :
    Decimal.read (exponentChars ⟨negative, .finite units⟩) = .ok (shortest negative units) := by
  obtain ⟨hscale, hexp⟩ := Magnitude.shortest_range h hlt
  have hnonneg := Magnitude.shortest_nonneg h hlt
  simp only [exponentChars, shortest]
  generalize Magnitude.shortest units = d at hscale hexp hnonneg
  have hfits : Decimal.fitsInt64 d.scale = true := by
    rw [Decimal.fitsInt64_iff]
    omega
  have hread := Decimal.read_leadingPoint negative d.mantissa.natAbs hfits (by unfold Decimal.digits at hexp; omega)
  rw [Int.natAbs_of_nonneg hnonneg] at hread
  exact hread

theorem ofDecimal_shortest {negative : Bool} {units : Nat} (h : Magnitude.roundQuotient units 1 = .finite units)
    (hlt : units < Magnitude.overflow) :
    ofDecimal (shortest negative units) = ⟨negative && units != 0, .finite units⟩ := by
  have habs : (shortest negative units).mantissa.natAbs = (Magnitude.shortest units).mantissa.natAbs := by
    cases negative with
    | true => exact Int.natAbs_neg _
    | false => rfl
  have hnonneg := Magnitude.shortest_nonneg h hlt
  have hmag := Magnitude.ofDecimal_shortest h hlt
  have hsign : (shortest negative units).isNegative = (negative && units != 0) := by
    by_cases h0 : units = 0
    · rw [h0, shortest, Magnitude.shortest_zero]
      cases negative <;> rfl
    · have hne := (Magnitude.ofDecimal_range hmag h0).1
      cases negative with
      | true =>
        have hneg : (shortest true units).mantissa < 0 := by
          show -(Magnitude.shortest units).mantissa < 0
          omega
        rw [Decimal.isNegative, decide_eq_true hneg]
        simp [h0]
      | false => exact decide_eq_false (Int.not_lt.mpr hnonneg)
  rw [ofDecimal, hsign, habs]
  congr 1

/-- A decimal in range is rounded to a number with its sign, and such a number to itself. -/
theorem ofDecimal_eq_finite {d : Decimal} {units : Nat} (h : (ofDecimal d).magnitude = .finite units) :
    ofDecimal d = ⟨d.isNegative, .finite units⟩ ∧ Magnitude.roundQuotient units 1 = .finite units ∧
      units < Magnitude.overflow := by
  refine ⟨?_, Magnitude.ofDecimal_idem h⟩
  rw [← h]
  rfl

theorem exponentText_zero (negative : Bool) :
    exponentText ⟨negative, .finite 0⟩ = if negative then "-0E0" else "0E0" := by
  simp only [exponentText, exponentChars, Magnitude.shortest_zero]
  cases negative with
  | true => rfl
  | false => rfl

/-- Only a negative zero is written as `-0E0`. -/
theorem exponentText_eq_negativeZero {negative : Bool} {units : Nat}
    (h : Magnitude.roundQuotient units 1 = .finite units) (hlt : units < Magnitude.overflow) :
    exponentText ⟨negative, .finite units⟩ = "-0E0" ↔ negative = true ∧ units = 0 := by
  constructor
  · intro htext
    have hread : Decimal.read (exponentChars ⟨negative, .finite units⟩) = .ok (shortest negative units) :=
      read_exponentChars h hlt
    have hzero : Decimal.read "-0E0".toList = .ok ⟨0, 0⟩ := rfl
    rw [← String.toList_ofList (l := exponentChars _), ← exponentText, htext, hzero, Except.ok.injEq] at hread
    have hback : ofDecimal (shortest negative units) = ⟨negative && units != 0, .finite units⟩ :=
      ofDecimal_shortest h hlt
    have hdecimal : ofDecimal ⟨0, 0⟩ = ⟨false, .finite 0⟩ := rfl
    rw [← hread, hdecimal, Binary64.mk.injEq, Magnitude.finite.injEq] at hback
    obtain ⟨-, rfl⟩ := hback
    rw [exponentText_zero] at htext
    cases negative with
    | true => exact ⟨rfl, rfl⟩
    | false => exact absurd htext (by decide)
  · rintro ⟨rfl, rfl⟩
    exact exponentText_zero true

end Binary64

end DocWire
