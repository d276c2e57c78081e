/-
  DocWire.Proofs.Field.Float — floating-point fields.

  A decimal is written as the number of the format that is nearest to it, so it may not come back as it was: it comes
  back as a decimal that is rounded to the same number (`float_returned`). A decimal that is too small becomes zero, and
  keeps its sign on the wire but not as a decimal, where there is one zero only. Written or read, a decimal is in range
  below 2^1024 - 2^970, from where on it would be rounded to infinity. Two decimals of one number are nearly the same:
  their distance is rounded to zero.
-/

import DocWire.Proofs.Field.Limits
import DocWire.Proofs.Number.Display

namespace DocWire

namespace Magnitude

/-- So many units are a number of the format, and none is nearer to the decimal's value without its sign. -/
def IsNearest (d : Decimal) (units : Nat) : Prop :=
  IsNumber units ∧
    ∀ other, IsNumber other → |(|d.value|) - units / 2 ^ 1074| ≤ |(|d.value|) - other / 2 ^ 1074|

theorem le_of_zero (m : Magnitude) : le (.finite 0) m = true := by
  cases m with
  | finite units => exact decide_eq_true (Nat.zero_le units)
  | infinite => rfl

end Magnitude

namespace Binary64

theorem magnitude_nearest {d : Decimal} {units : Nat} (h : (ofDecimal d).magnitude = .finite units) :
    Magnitude.IsNearest d units := by
  have hround : Magnitude.ofDecimal d.mantissa.natAbs d.scale = .finite units := h
  have habs : |d.value| = |Decimal.value ⟨d.mantissa.natAbs, d.scale⟩| := by
    rw [Decimal.value_natAbs, abs_abs]
  constructor
  · rw [Magnitude.ofDecimal_eq] at hround
    exact Magnitude.roundQuotient_isNumber hround
  · intro other ho
    rw [habs]
    exact Magnitude.ofDecimal_nearest hround ho

/-- Equal numbers are near each other. -/
theorem near_of_same {x y : Binary64} (h : x.Same y) {units : Nat} (hx : x.magnitude = .finite units) : x.near y = true := by
  obtain ⟨hmagnitude, hsign⟩ := h
  rw [hx] at hmagnitude hsign
  have hdistance : (if x.negative == y.negative then max units units - min units units else units + units) = 0 := by
    rcases hsign with hsign | hzero
    · rw [hsign, beq_self_eq_true, if_pos rfl, Nat.max_self, Nat.min_self, Nat.sub_self]
    · cases hzero
      split <;> rfl
  have hzero : Magnitude.roundQuotient 0 1 = .finite 0 :=
    (Magnitude.roundQuotient_eq_zero_iff Nat.one_pos).mpr (by decide)
  unfold near
  rw [hx, ← hmagnitude]
  simp only [hdistance, hzero]
  exact Magnitude.le_of_zero _

end Binary64

namespace Coercion

/-- A decimal is in range of a floating-point field below 2^1024 - 2^970, written or read; what is written is the nearest
number of the format, and reads back to a decimal of that same number. The text that the decimal is displayed as stands
for the same number, in whichever form, so it may be rounded in the decimal's place. -/
theorem float_returned {f : Format} (hf : f.type = .float) (d : Decimal) :
    ((∃ w, encode f (.decimal d) = .ok w) ↔ |d.value| < 2 ^ 1024 - 2 ^ 970) ∧
    (∀ text, Decimal.read (Text.trim text.toList) = .ok d →
      ∀ v, decode f text = .ok v ↔ v = .decimal d ∧ |d.value| < 2 ^ 1024 - 2 ^ 970) ∧
    (∀ w, encode f (.decimal d) = .ok w → ∃ d' units,
      decode f w = .ok (.decimal d') ∧ decodeWire f w = .ok (some (.decimal d')) ∧
      Binary64.Same (.ofDecimal d') (.ofDecimal d) ∧ (Binary64.ofDecimal d).magnitude = .finite units ∧
      Magnitude.IsNearest d units ∧ Magnitude.IsNearest d' units ∧
      Value.nearlySame (.decimal d') (.decimal d) = true) ∧
    (Decimal.fitsInt64 d.scale = true → ∃ e,
      Decimal.read d.textChars = .ok e ∧ e.value = d.value ∧ Binary64.ofDecimal e = Binary64.ofDecimal d) := by
  have hkind : f.type.kind = .decimal := by rw [hf]; rfl
  refine ⟨?_, ?_, ?_, ?_⟩
  · rw [exists_encode_decimal_iff hkind, inRange_iff hf]
  · intro text hread v
    rw [decode_decimal_iff hkind hread, inRange_iff hf]
  · intro w hw
    obtain ⟨hrange, rfl⟩ := (encode_decimal_iff hkind).mp hw
    have hfault : floatFault? d = none := floatFault?_eq_none_iff.mpr ((inRange_iff hf).mp hrange)
    obtain ⟨units, hunits, hback, hsame⟩ := decodeWire_float hf hfault
    generalize Binary64.shortest d.isNegative units = d' at hback hsame
    rw [wireText, if_pos hf]
    have hunits' : (Binary64.ofDecimal d').magnitude = .finite units := hsame.1.symm.trans hunits
    have hsame' : Binary64.Same (.ofDecimal d') (.ofDecimal d) := by
      refine ⟨hsame.1.symm, ?_⟩
      rcases hsame.2 with hsign | hzero
      · exact .inl hsign.symm
      · exact .inr (hsame.1.symm.trans hzero)
    refine ⟨d', units, decode_of_decodeWire hback, hback, hsame', hunits, Binary64.magnitude_nearest hunits,
      Binary64.magnitude_nearest hunits', ?_⟩
    rw [Value.nearlySame, Binary64.near_of_same hsame' hunits', Bool.or_true]
  · intro hscale
    obtain ⟨e, hread, hvalue⟩ := Decimal.read_textChars hscale
    exact ⟨e, hread, hvalue, Binary64.ofDecimal_eq_of_value hvalue⟩

/-- A decimal that is too small is written as a zero with its sign, and comes back as the decimal zero. -/
theorem float_returned_small :
    encode ⟨.float, 0, 0⟩ (.decimal ⟨-1, 400⟩) = .ok "-0E0" ∧
    decode ⟨.float, 0, 0⟩ " -1e-400" = .ok (.decimal ⟨-1, 400⟩) ∧
    decodeWire ⟨.float, 0, 0⟩ "-0E0" = .ok (some (.decimal ⟨0, 0⟩)) ∧ Magnitude.IsNearest ⟨-1, 400⟩ 0 ∧
    Value.nearlySame (.decimal ⟨0, 0⟩) (.decimal ⟨-1, 400⟩) = true ∧
    (∃ e, Decimal.read (Decimal.textChars ⟨-1, 400⟩) = .ok e ∧ e.value = Decimal.value ⟨-1, 400⟩ ∧
      Binary64.ofDecimal e = Binary64.ofDecimal ⟨-1, 400⟩) := by
  have hwire : encode ⟨.float, 0, 0⟩ (.decimal ⟨-1, 400⟩) = .ok "-0E0" := by decide +kernel
  have hread : Decimal.read (Text.trim " -1e-400".toList) = .ok ⟨-1, 400⟩ := by decide +kernel
  have hzero : decodeWire ⟨.float, 0, 0⟩ "-0E0" = .ok (some (.decimal ⟨0, 0⟩)) := by decide +kernel
  have hunits : (Binary64.ofDecimal ⟨-1, 400⟩).magnitude = .finite 0 := by decide +kernel
  obtain ⟨hrange, hdecode, hback, hdisplayed⟩ := float_returned (f := ⟨.float, 0, 0⟩) rfl ⟨-1, 400⟩
  obtain ⟨d', units, -, hwired, -, hmagnitude, hnearest, -, hnear⟩ := hback _ hwire
  rw [hzero] at hwired
  cases hwired
  rw [hunits] at hmagnitude
  cases hmagnitude
  exact ⟨hwire, (hdecode _ hread _).mpr ⟨rfl, hrange.mp ⟨_, hwire⟩⟩, hzero, hnearest, hnear, hdisplayed rfl⟩

end Coercion

end DocWire
