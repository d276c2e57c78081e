/-
  DocWire.Proofs.Number.Value — the number that a decimal stands for.

  `value` is the rational `mantissa · 10^(-scale)`, which decimals of one number share whatever their scales.
  Comparing normal forms is comparing values (`sameValue_iff`): of two scales the larger is reached from the smaller by
  zeros in the mantissa, and the normal form does not see those. A value has so many places, or so many whole digits,
  exactly as the normal form shows them: its mantissa does not end in a zero (`normal_not_dvd`), so no place of it is
  superfluous, and a mantissa of `n` digits lies below `10^n` and not below `10^(n - 1)`.
-/

import DocWire.Proofs.Number.Decimal
import Mathlib.Algebra.Order.Field.Power
import Mathlib.Algebra.Order.Field.Rat
import Mathlib.Data.Rat.Cast.Order
import Mathlib.Tactic.FieldSimp
import Mathlib.Tactic.Linarith

namespace DocWire.Decimal

/-- The number that a decimal stands for. -/
def value (d : Decimal) : ℚ := d.mantissa * 10 ^ (-d.scale)

theorem ten_zpow_pos (n : ℤ) : (0 : ℚ) < 10 ^ n := zpow_pos (by decide) n

theorem value_zero (s : ℤ) : value ⟨0, s⟩ = 0 := by simp [value]

theorem value_eq_zero_iff {d : Decimal} : d.value = 0 ↔ d.mantissa = 0 := by
  rw [value, mul_eq_zero_iff_right (ten_zpow_pos _).ne', Int.cast_eq_zero]

theorem isNegative_iff {d : Decimal} : d.isNegative = true ↔ d.value < 0 := by
  have hpos := ten_zpow_pos (-d.scale)
  rw [isNegative, decide_eq_true_eq, value, ← Int.cast_lt_zero (R := ℚ)]
  constructor
  · intro h
    exact mul_neg_of_neg_of_pos h hpos
  · intro h
    exact neg_of_mul_neg_left h hpos.le

/-- A zero may move from the mantissa to the scale. -/
theorem value_mul_pow (m s : ℤ) (k : ℕ) : value ⟨m * 10 ^ k, s⟩ = value ⟨m, s - k⟩ := by
  have hsplit : (10 : ℚ) ^ (-(s - k : ℤ)) = 10 ^ k * 10 ^ (-s) := by
    rw [← zpow_natCast, ← zpow_add₀ (by decide)]
    congr 1
    omega
  simp only [value]
  push_cast
  rw [hsplit]
  ring

theorem value_normal (d : Decimal) : d.normal.value = d.value := by
  by_cases hd : d.mantissa = 0
  · rw [normal, if_pos hd, value_zero, value_eq_zero_iff.mpr hd]
  · have hback : d = ⟨d.normal.mantissa * 10 ^ trailingZeros d.digits, d.scale⟩ :=
      congrArg (mk · d.scale) (mantissa_eq_normal d hd)
    have hscale := scale_eq_normal d hd
    have hrest : d.normal.scale = d.scale - trailingZeros d.digits := by omega
    have hnormal : d.normal = ⟨d.normal.mantissa, d.scale - trailingZeros d.digits⟩ :=
      congrArg (mk d.normal.mantissa) hrest
    conv_rhs => rw [hback, value_mul_pow, ← hnormal]

theorem value_settled (d : Decimal) : d.settled.value = d.value := by
  rw [← value_normal, normal_settled, value_normal]

/-- With the larger scale, a value has a mantissa with zeros at its end. -/
theorem mantissa_of_value_eq {a b : Decimal} (h : a.value = b.value) (hs : a.scale ≤ b.scale) :
    b.mantissa = a.mantissa * 10 ^ (b.scale - a.scale).toNat := by
  have hsplit : (10 : ℚ) ^ (-a.scale) = 10 ^ (b.scale - a.scale).toNat * 10 ^ (-b.scale) := by
    rw [← zpow_natCast, ← zpow_add₀ (by decide), Int.toNat_of_nonneg (by omega)]
    congr 1
    omega
  have hmul : (b.mantissa : ℚ) * 10 ^ (-b.scale) = a.mantissa * 10 ^ (b.scale - a.scale).toNat * 10 ^ (-b.scale) := by
    rw [mul_assoc, ← hsplit]
    exact h.symm
  have hcancel := mul_right_cancel₀ (ten_zpow_pos (-b.scale)).ne' hmul
  exact_mod_cast hcancel

theorem normal_eq_of_value_eq {a b : Decimal} (h : a.value = b.value) (hs : a.scale ≤ b.scale) :
    a.normal = b.normal := by
  have hb : b = ⟨a.mantissa * 10 ^ (b.scale - a.scale).toNat, b.scale⟩ := by
    rw [← mantissa_of_value_eq h hs]
  have hscale : b.scale - ((b.scale - a.scale).toNat : ℤ) = a.scale := by omega
  rw [hb, normal_mul_pow, hscale]

/-- Comparing normal forms is comparing values. -/
theorem sameValue_iff {a b : Decimal} : a.sameValue b = true ↔ a.value = b.value := by
  rw [sameValue, beq_iff_eq]
  constructor
  · intro h
    rw [← value_normal a, h, value_normal]
  · intro h
    by_cases hs : a.scale ≤ b.scale
    · exact normal_eq_of_value_eq h hs
    · exact (normal_eq_of_value_eq h.symm (by omega)).symm

/-! ## Places -/

theorem natAbs_eq_normal (d : Decimal) (hd : d.mantissa ≠ 0) :
    d.mantissa.natAbs = d.normal.mantissa.natAbs * 10 ^ trailingZeros d.digits := by
  have h := congrArg Int.natAbs (mantissa_eq_normal d hd)
  rwa [Int.natAbs_mul, Int.natAbs_pow] at h

theorem normal_ne_zero (d : Decimal) (hd : d.mantissa ≠ 0) : d.normal.mantissa ≠ 0 := by
  intro h0
  have hvalue := value_eq_zero_iff.mpr h0
  rw [value_normal, value_eq_zero_iff] at hvalue
  exact hd hvalue

/-- The normal form has left the zeros at the end of the digits. -/
theorem digits_eq_normal (d : Decimal) (hd : d.mantissa ≠ 0) :
    d.digits = d.normal.digits ++ List.replicate (trailingZeros d.digits) '0' := by
  conv_lhs => rw [digits, natAbs_eq_normal d hd, Number.digits_mul_pow (Int.natAbs_pos.mpr (normal_ne_zero d hd))]
  rfl

theorem length_digits_normal (d : Decimal) (hd : d.mantissa ≠ 0) :
    d.normal.digits.length + trailingZeros d.digits = d.digits.length := by
  have h := congrArg List.length (digits_eq_normal d hd)
  rw [List.length_append, List.length_replicate] at h
  exact h.symm

theorem trailingZeros_normal (d : Decimal) (hd : d.mantissa ≠ 0) : trailingZeros d.normal.digits = 0 := by
  have h := congrArg trailingZeros (digits_eq_normal d hd)
  rw [trailingZeros_append] at h
  omega

/-- The mantissa of a normal form does not end in a zero. -/
theorem normal_not_dvd (d : Decimal) (hd : d.mantissa ≠ 0) : ¬ (10 : ℤ) ∣ d.normal.mantissa := by
  intro hdvd
  obtain ⟨k, hk⟩ := hdvd
  have hne := normal_ne_zero d hd
  have hpos : 0 < k.natAbs := by omega
  have habs : d.normal.mantissa.natAbs = k.natAbs * 10 ^ 1 := by omega
  have hzeros := trailingZeros_normal d hd
  rw [digits, habs, Number.digits_mul_pow hpos, trailingZeros_append] at hzeros
  omega

/-- A value is a whole number of units of the last of `k` places where the scale of its normal form is at most `k`. -/
theorem whole_iff {d : Decimal} (hd : ¬ (10 : ℤ) ∣ d.mantissa) (k : ℕ) :
    (∃ n : ℤ, d.value * 10 ^ k = n) ↔ d.scale ≤ k := by
  have hmove : d.value * 10 ^ k = value ⟨d.mantissa, d.scale - k⟩ := by
    rw [← value_mul_pow, value, value]
    push_cast
    ring
  constructor
  · intro h
    obtain ⟨n, hn⟩ := h
    by_contra hlt
    have hwhole : value ⟨n, 0⟩ = value ⟨d.mantissa, d.scale - k⟩ := by
      rw [← hmove, hn]
      simp [value]
    have hm := mantissa_of_value_eq hwhole (by simp only; omega)
    apply hd
    rw [hm]
    exact Dvd.dvd.mul_left (dvd_pow_self 10 (by simp only; omega)) n
  · intro hle
    refine ⟨d.mantissa * 10 ^ (k - d.scale).toNat, ?_⟩
    have hexp : -(d.scale - k) = ((k - d.scale).toNat : ℤ) := by omega
    rw [hmove, value, hexp, zpow_natCast]
    push_cast
    rfl

/-! ## Size -/

theorem abs_value (d : Decimal) : |d.value| = d.mantissa.natAbs * 10 ^ (-d.scale) := by
  rw [value, abs_mul, abs_of_pos (ten_zpow_pos _), Nat.cast_natAbs, Int.cast_abs]

theorem value_natAbs (d : Decimal) : value ⟨d.mantissa.natAbs, d.scale⟩ = |d.value| := by
  rw [abs_value]
  rfl

/-- A value is below a power of ten where its first digit is. -/
theorem abs_value_lt_iff {d : Decimal} (hd : d.mantissa ≠ 0) (k : ℤ) :
    |d.value| < 10 ^ k ↔ (d.digits.length : ℤ) - d.scale ≤ k := by
  have hmove : |d.value| < 10 ^ k ↔ (d.mantissa.natAbs : ℚ) < 10 ^ (k + d.scale) := by
    rw [abs_value, zpow_neg, ← div_eq_mul_inv, div_lt_iff₀ (ten_zpow_pos _), ← zpow_add₀ (by decide)]
  have hpos : 0 < d.mantissa.natAbs := Int.natAbs_pos.mpr hd
  have hlen : 0 < d.digits.length := List.length_pos_iff.mpr (Number.digits_ne_nil _)
  rw [hmove]
  by_cases hk : 0 < k + d.scale
  · have hexp : k + d.scale = ((k + d.scale).toNat : ℤ) := by omega
    have hdigits := Number.length_digits_le_iff (n := d.mantissa.natAbs) (show 0 < (k + d.scale).toNat by omega)
    rw [hexp, zpow_natCast]
    have hcast : (d.mantissa.natAbs : ℚ) < 10 ^ (k + d.scale).toNat ↔ d.mantissa.natAbs < 10 ^ (k + d.scale).toNat := by
      rw [← Nat.cast_lt (α := ℚ)]
      push_cast
      rfl
    rw [hcast, ← hdigits]
    simp only [digits]
    omega
  · have hone : (10 : ℚ) ^ (k + d.scale) ≤ 1 := zpow_le_one_of_nonpos₀ (by decide) (by omega)
    have hge : (1 : ℚ) ≤ d.mantissa.natAbs := by exact_mod_cast hpos
    constructor
    · intro h
      linarith
    · intro h
      omega

end DocWire.Decimal
