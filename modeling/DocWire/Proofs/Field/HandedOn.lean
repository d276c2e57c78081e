/-
  DocWire.Proofs.Field.HandedOn — wire strings that are read and written again.

  What was written is read, and what is read is written as the same wire string (`decoded_encode`). The zeros of a
  negative scale are digits from the start, a text is cut once, and the shortest digits of a number are those of the
  number that they are read as. There is one exception. A negative decimal of at most half a unit is written as a zero
  with its sign, and a decimal has no such zero: what is read of `-0E0` is written as `0E0`, and stays that (`handedOn`).
-/

import DocWire.Proofs.Field.Limits

namespace DocWire.Coercion

variable {f : Format} {v : Value} {w : String}

/-- The wire string that is written of what was read from another: the zero with a sign becomes one without. -/
def handedOn (f : Format) (w : String) : String := if f.type = .float ∧ w = "-0E0" then "0E0" else w

theorem handedOn_handedOn (f : Format) (w : String) : handedOn f (handedOn f w) = handedOn f w := by
  by_cases h : f.type = .float ∧ w = "-0E0"
  · rw [handedOn, handedOn, if_pos h, if_neg]
    intro h'
    exact absurd h'.2 (by decide)
  · have hkept : handedOn f w = w := if_neg h
    rw [hkept, hkept]

theorem handedOn_of_ne_float (hf : f.type ≠ .float) : handedOn f w = w := if_neg fun h => hf h.1

theorem cutText_cutText (length : Nat) (s : String) : cutText length (cutText length s) = cutText length s := by
  unfold cutText
  by_cases hlength : length = 0
  · simp only [if_pos hlength]
  · simp only [if_neg hlength, String.toList_ofList, List.take_take, Nat.min_self]

theorem encode_settled {d : Decimal} (hk : f.type.kind = .decimal) (hf : f.type ≠ .float) (hr : decimalFault? f d = none) :
    encode f (.decimal d.settled) = .ok d.plain := by
  refine encode_eq_ok.mpr ⟨hk.symm, ?_, ?_⟩
  · rw [rangeFault?, if_neg hf]
    exact (decimalFault?_settled hr).1
  · rw [wireText, if_neg hf, Decimal.plain, Decimal.plain, Decimal.plainChars_settled]

/-- A number of the format is written with its shortest digits, which are those of what they are read as. -/
theorem encode_shortest {d : Decimal} (hf : f.type = .float) {units : Nat}
    (hunits : (Binary64.ofDecimal d).magnitude = .finite units) :
    encode f (.decimal (Binary64.shortest d.isNegative units)) = .ok (handedOn f (Binary64.ofDecimal d).exponentText) := by
  obtain ⟨hx, hround, hlt⟩ := Binary64.ofDecimal_eq_finite hunits
  have hback : Binary64.ofDecimal (Binary64.shortest d.isNegative units) = ⟨d.isNegative && units != 0, .finite units⟩ :=
    Binary64.ofDecimal_shortest hround hlt
  have hzero : Binary64.exponentText ⟨d.isNegative, .finite units⟩ = "-0E0" ↔ d.isNegative = true ∧ units = 0 :=
    Binary64.exponentText_eq_negativeZero hround hlt
  refine encode_eq_ok.mpr ⟨?_, ?_, ?_⟩
  · rw [hf]
    rfl
  · rw [rangeFault?, if_pos hf, floatFault?, hback]
    rfl
  · rw [wireText, if_pos hf, hback, hx]
    by_cases hsigned : d.isNegative = true ∧ units = 0
    · rw [handedOn, if_pos ⟨hf, hzero.mpr hsigned⟩, hsigned.2, bne_self_eq_false, Bool.and_false]
      decide +kernel
    · rw [handedOn, if_neg (fun h => hsigned (hzero.mp h.2))]
      by_cases hnone : units = 0
      · have hpositive : d.isNegative = false := by simpa [hnone] using hsigned
        rw [hpositive, Bool.false_and]
      · have hsome : (units != 0) = true := bne_iff_ne.mpr hnone
        rw [hsome, Bool.and_true]

/-- What was written is read, and what is read is written again. -/
theorem decoded_encode (h : encode f v = .ok w) :
    ∃ v', decodeWire f w = .ok (some v') ∧ encode f v' = .ok (handedOn f w) := by
  obtain ⟨v', hback, hrecovered⟩ := decodeWire_encode h
  refine ⟨v', hback, ?_⟩
  obtain ⟨hk, hr, rfl⟩ := encode_eq_ok.mp h
  have hfloat : f.type = .float → v.kind = .decimal := by
    intro hf
    rw [hk, hf]
    rfl
  cases v with
  | text s =>
    subst hrecovered
    rw [handedOn_of_ne_float fun hf => by cases hfloat hf]
    refine encode_eq_ok.mpr ⟨hk, rfl, ?_⟩
    rw [wireText, wireText, cutText_cutText]
  | decimal d =>
    by_cases hf : f.type = .float
    · obtain ⟨units, hunits, hdecode, -⟩ := decodeWire_float hf (by simpa only [rangeFault?, if_pos hf] using hr)
      rw [wireText, if_pos hf] at hback ⊢
      rw [hdecode, Except.ok.injEq, Option.some.injEq] at hback
      rw [← hback]
      exact encode_shortest hf hunits
    · have hfault : decimalFault? f d = none := by simpa only [rangeFault?, if_neg hf] using hr
      rw [handedOn_of_ne_float hf]
      rw [wireText, if_neg hf] at hback ⊢
      rw [decodeWire_decimal hk.symm hf hfault, Except.ok.injEq, Option.some.injEq] at hback
      rw [← hback]
      exact encode_settled hk.symm hf hfault
  | integer n | date d | time t | bytes b =>
    subst hrecovered
    rw [handedOn_of_ne_float fun hf => by cases hfloat hf]
    exact h

/-- A wire string loses its sign where a negative decimal was rounded to zero. -/
theorem handedOn_ne_iff (h : encode f v = .ok w) :
    handedOn f w ≠ w ↔ f.type = .float ∧ ∃ d, v = .decimal d ∧ -(1 / 2 ^ 1075) ≤ d.value ∧ d.value < 0 := by
  obtain ⟨hk, hr, rfl⟩ := encode_eq_ok.mp h
  have hkept : handedOn f (wireText f v) ≠ wireText f v ↔ f.type = .float ∧ wireText f v = "-0E0" := by
    rw [handedOn]
    by_cases hlost : f.type = .float ∧ wireText f v = "-0E0"
    · rw [if_pos hlost, hlost.2]
      exact iff_of_true (by decide) ⟨hlost.1, rfl⟩
    · rw [if_neg hlost]
      exact iff_of_false (by simp) hlost
  rw [hkept]
  refine and_congr_right ?_
  intro hf
  rw [hf] at hk
  cases v with
  | decimal d =>
    obtain ⟨units, hunits, -, -⟩ := decodeWire_float hf (by simpa only [rangeFault?, if_pos hf] using hr)
    obtain ⟨hx, hround, hlt⟩ := Binary64.ofDecimal_eq_finite hunits
    have hzero : units = 0 ↔ |d.value| ≤ 1 / 2 ^ 1075 := by
      have hvalue := Magnitude.ofDecimal_eq_zero_iff d.mantissa.natAbs d.scale
      rw [Decimal.value_natAbs, abs_abs] at hvalue
      rw [← hvalue, ← Magnitude.finite.injEq]
      exact Eq.congr_left hunits.symm
    rw [wireText, if_pos hf, hx, Binary64.exponentText_eq_negativeZero hround hlt, Decimal.isNegative_iff, hzero]
    constructor
    · rintro ⟨hnegative, hsmall⟩
      exact ⟨d, rfl, (abs_le.mp hsmall).1, hnegative⟩
    · rintro ⟨d', he, hsmall, hnegative⟩
      cases he
      refine ⟨hnegative, ?_⟩
      rw [abs_of_neg hnegative]
      exact neg_le.mp hsmall
  | text _ | integer _ | date _ | time _ | bytes _ => cases hk

end DocWire.Coercion
