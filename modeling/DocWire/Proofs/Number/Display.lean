/-
  DocWire.Proofs.Number.Display — the text that a decimal is displayed as.

  A decimal is displayed in one of three forms: with an exponent and a point, with an exponent alone, or in plain digits.
  Each is one of the forms that `read_number` reads, so what is displayed reads as the same number (`read_textChars`),
  and as decimals of one value are rounded alike (`Binary64.ofDecimal_eq_of_value`), rounding the displayed text is
  rounding the decimal.
-/

import DocWire.Proofs.Number.Binary64
import DocWire.Proofs.Number.Value

namespace DocWire

namespace Decimal

/-- A zero is displayed as the zero of scale 0. -/
def displayed (d : Decimal) : Decimal := ⟨d.mantissa, if d.mantissa = 0 then 0 else d.scale⟩

theorem value_displayed (d : Decimal) : d.displayed.value = d.value := by
  by_cases hd : d.mantissa = 0
  · rw [value_eq_zero_iff.mpr hd, value_eq_zero_iff]
    exact hd
  · rw [displayed, if_neg hd]

theorem fitsInt64_displayed {d : Decimal} (hd : fitsInt64 d.scale = true) : fitsInt64 d.displayed.scale = true := by
  unfold displayed
  split
  · rfl
  · exact hd

theorem textChars_eq (d : Decimal) : d.textChars = d.sign ++
    if d.displayed.scale - d.digits.length > 5 then
      leadingPoint d.digits ++ 'E' :: Number.intChars (d.digits.length - 1 - d.displayed.scale)
    else if -d.displayed.scale > 15 then d.digits ++ 'e' :: '+' :: Number.digits d.displayed.scale.natAbs
    else plainDigits d.digits d.displayed.scale := rfl

/-- What is displayed reads as the same number. -/
theorem read_textChars {d : Decimal} (hd : fitsInt64 d.scale = true) :
    ∃ e, read d.textChars = .ok e ∧ e.value = d.value := by
  have hfits := fitsInt64_displayed hd
  have hrange := fitsInt64_iff.mp hfits
  have hmantissa : (if d.isNegative then -(d.mantissa.natAbs : ℤ) else d.mantissa.natAbs) = d.mantissa :=
    signed_natAbs d.mantissa
  rw [textChars_eq]
  by_cases hpoint : d.displayed.scale - d.digits.length > 5
  · refine ⟨d.displayed, ?_, value_displayed d⟩
    have hread := read_leadingPoint d.isNegative d.mantissa.natAbs hfits (by unfold digits at hpoint; omega)
    rw [hmantissa] at hread
    rw [if_pos hpoint]
    exact hread
  rw [if_neg hpoint]
  by_cases hmark : -d.displayed.scale > 15
  · refine ⟨d.displayed, ?_, value_displayed d⟩
    have hscale : ((0 : ℕ) : ℤ) - d.displayed.scale.natAbs = d.displayed.scale := by omega
    have hread := read_number d.isNegative (Number.digits_digits d.mantissa.natAbs) (Number.digits_ne_nil _)
      Number.digits_nil (.whole rfl) (.plus d.displayed.scale.natAbs (by omega) rfl)
      (by rw [List.length_nil, hscale]; exact hfits)
    rw [List.append_nil, List.append_nil, Number.digitsValue_digits, hmantissa, List.length_nil, hscale,
      List.append_assoc] at hread
    rw [if_pos hmark]
    exact hread
  · rw [if_neg hmark]
    have hread := read_plainChars (d := d.displayed) (by omega)
    exact ⟨_, hread, by rw [value_settled, value_displayed]⟩

end Decimal

/-- Decimals of one value are rounded alike. -/
theorem Binary64.ofDecimal_eq_of_value {a b : Decimal} (h : a.value = b.value) : ofDecimal a = ofDecimal b := by
  have hsign : a.isNegative = b.isNegative := by
    rw [Bool.eq_iff_iff, Decimal.isNegative_iff, Decimal.isNegative_iff, h]
  have hnormal : Decimal.normal ⟨a.mantissa.natAbs, a.scale⟩ = Decimal.normal ⟨b.mantissa.natAbs, b.scale⟩ := by
    apply eq_of_beq
    rw [← Decimal.sameValue, Decimal.sameValue_iff, Decimal.value_natAbs, Decimal.value_natAbs, h]
  rw [ofDecimal, ofDecimal, hsign, ← Magnitude.ofDecimal_normal a.mantissa.natAbs, hnormal, Magnitude.ofDecimal_normal]

end DocWire
