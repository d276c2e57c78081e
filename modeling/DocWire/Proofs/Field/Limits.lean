/-
  DocWire.Proofs.Field.Limits — what a field has room for.

  `FitsFixed` says of numbers, without counting digits, which ones a fixed-point field takes: a scale that is written
  out, and, where a length is declared, a whole number of units of the last place that is below a power of ten. The
  digit counts decide just that (`decimalFault?_eq_none_iff`), because they are taken from the normal form.
  `Exceeds` collects the limits of all types. A value is written exactly where it is of the field's kind and exceeds
  none of them (`encode_ok_iff`), and a wire string is read exactly where it reads as such a value (`decode_eq_ok_iff`).
-/

import DocWire.Proofs.Field.Coercion
import DocWire.Proofs.Number.Rounding

namespace DocWire.Coercion

variable {f : Format} {v : Value}

/-! ## Fixed-point fields -/

/-- A decimal that a fixed-point field has room for. -/
def FitsFixed (f : Format) (d : Decimal) : Prop :=
  d.scale.natAbs ≤ 4096 ∧
    (f.length = 0 ∨ (∃ n : ℤ, d.value * 10 ^ f.decimals = n) ∧ |d.value| < 10 ^ (f.length - f.decimals))

theorem digitCounts_zero {d : Decimal} (hd : d.mantissa = 0) : digitCounts d = (0, 0) := by
  simp only [digitCounts, Decimal.normal, if_pos hd, if_true]

theorem digitCounts_eq {d : Decimal} (hd : d.mantissa ≠ 0) :
    digitCounts d = ((d.normal.digits.length - d.normal.scale).toNat, d.normal.scale.toNat) := by
  simp only [digitCounts, if_neg (Decimal.normal_ne_zero d hd)]
  by_cases hs : 0 ≤ d.normal.scale
  · rw [if_pos hs]
    congr 1 <;> omega
  · rw [if_neg hs]
    congr 1 <;> omega

/-- The places of a value are the fewest that leave a whole number. -/
theorem places_le_iff (d : Decimal) (k : Nat) : (digitCounts d).2 ≤ k ↔ ∃ n : ℤ, d.value * 10 ^ k = n := by
  by_cases hd : d.mantissa = 0
  · rw [digitCounts_zero hd, Decimal.value_eq_zero_iff.mpr hd]
    exact iff_of_true (Nat.zero_le k) ⟨0, by simp⟩
  · rw [digitCounts_eq hd, ← Decimal.value_normal, Decimal.whole_iff (Decimal.normal_not_dvd d hd)]
    exact Int.toNat_le

/-- The digits of a value before the point are the fewest whose power of ten is above it. -/
theorem wholeDigits_le_iff (d : Decimal) (k : Nat) : (digitCounts d).1 ≤ k ↔ |d.value| < 10 ^ k := by
  by_cases hd : d.mantissa = 0
  · rw [digitCounts_zero hd, Decimal.value_eq_zero_iff.mpr hd, abs_zero]
    exact iff_of_true (Nat.zero_le k) (by positivity)
  · have hsize := Decimal.abs_value_lt_iff (Decimal.normal_ne_zero d hd) k
    rw [Decimal.value_normal, zpow_natCast] at hsize
    rw [digitCounts_eq hd, hsize]
    exact Int.toNat_le

/-- The limits of a fixed-point field are those of the number. -/
theorem decimalFault?_eq_none_iff {d : Decimal} : decimalFault? f d = none ↔ FitsFixed f d := by
  rw [FitsFixed, ← places_le_iff, ← wholeDigits_le_iff, decimalFault?]
  have hmax : maxPlainScale = 4096 := rfl
  by_cases hscale : maxPlainScale < d.scale.natAbs
  · rw [if_pos hscale]
    exact iff_of_false (by simp) (by omega)
  rw [if_neg hscale]
  by_cases hlength : f.length = 0
  · rw [if_pos hlength]
    exact iff_of_true rfl ⟨by omega, .inl hlength⟩
  rw [if_neg hlength]
  by_cases hplaces : f.decimals < (digitCounts d).2
  · simp only [if_pos hplaces]
    exact iff_of_false (by simp) (by omega)
  simp only [if_neg hplaces]
  by_cases hwhole : f.length - f.decimals < (digitCounts d).1
  · rw [if_pos hwhole]
    exact iff_of_false (by simp) (by omega)
  · rw [if_neg hwhole]
    exact iff_of_true rfl (by omega)

theorem floatFault?_eq_none_iff {d : Decimal} : floatFault? d = none ↔ |d.value| < 2 ^ 1024 - 2 ^ 970 := by
  rw [← Binary64.isFinite_iff, floatFault?]
  cases (Binary64.ofDecimal d).isFinite with
  | true => exact iff_of_true rfl rfl
  | false => exact iff_of_false (by simp) (by simp)

/-! ## Every type -/

/-- A value of the field's kind that is beyond a limit of the field. -/
def Exceeds (f : Format) : Value → Prop
  | .text _ => False
  | .integer n => ∃ least greatest, f.type.integerRange? = some (least, greatest) ∧ (n < least ∨ greatest < n)
  | .decimal d => ¬ if f.type = .float then |d.value| < 2 ^ 1024 - 2 ^ 970 else FitsFixed f d
  | .date d => d.year < 0 ∨ 9999 < d.year
  | .time t => t.nano ≠ 0
  | .bytes b => f.type = .raw ∧ 0 < f.length ∧ f.length < b.length

theorem rangeFault?_eq_none_iff : rangeFault? f v = none ↔ ¬ Exceeds f v := by
  cases v with
  | text s => simp [rangeFault?, Exceeds]
  | integer n =>
    simp only [rangeFault?, integerFault?, Exceeds]
    cases hrange : f.type.integerRange? with
    | none => simp
    | some range =>
      obtain ⟨least, greatest⟩ := range
      by_cases hn : least ≤ n ∧ n ≤ greatest
      · simp only [if_pos hn, Option.some.injEq, Prod.mk.injEq, true_iff]
        intro h
        obtain ⟨_, _, ⟨rfl, rfl⟩, hout⟩ := h
        omega
      · simp only [if_neg hn]
        exact iff_of_false (by simp) (fun h => h ⟨least, greatest, rfl, by omega⟩)
  | decimal d =>
    simp only [rangeFault?, Exceeds, not_not]
    by_cases hf : f.type = .float
    · rw [if_pos hf, if_pos hf, floatFault?_eq_none_iff]
    · rw [if_neg hf, if_neg hf, decimalFault?_eq_none_iff]
  | date d =>
    simp only [rangeFault?, dateFault?, Exceeds]
    by_cases hd : 0 ≤ d.year ∧ d.year ≤ 9999
    · rw [if_pos hd]
      exact iff_of_true rfl (by omega)
    · rw [if_neg hd]
      exact iff_of_false (by simp) (by omega)
  | time t =>
    simp only [rangeFault?, timeFault?, Exceeds, not_not]
    by_cases ht : t.nano = 0
    · simp [ht]
    · simp [ht]
  | bytes b =>
    simp only [rangeFault?, bytesFault?, Exceeds]
    by_cases hb : f.type = .raw ∧ 0 < f.length ∧ f.length < b.length
    · simp [hb]
    · simp [hb]

/-- A value is written exactly where it is of the field's kind and within the limits. -/
theorem encode_ok_iff {w : String} : encode f v = .ok w ↔ (v.kind = f.type.kind ∧ ¬ Exceeds f v) ∧ w = wireText f v := by
  rw [encode_eq_ok, rangeFault?_eq_none_iff, and_assoc]

theorem encode_wrongKind (hk : v.kind ≠ f.type.kind) :
    encode f v = .error (.kindMismatch f.type f.type.kind v.kind) := if_neg hk

theorem encode_exceeds (hk : v.kind = f.type.kind) (h : Exceeds f v) :
    ∃ fault, encode f v = .error (.outOfRange f.type (refusedText v) fault) := by
  rw [encode, if_pos hk, checkRange]
  cases hfault : rangeFault? f v with
  | none => exact absurd h (rangeFault?_eq_none_iff.mp hfault)
  | some fault => exact ⟨fault, rfl⟩

/-- A wire string is read exactly where it reads as a value within the limits. -/
theorem decode_eq_ok_iff {text : String} :
    decode f text = .ok v ↔ readValue f.type.kind text = .ok v ∧ ¬ Exceeds f v := by
  rw [decode_eq_ok, rangeFault?_eq_none_iff]

/-! ## Decimals -/

section Decimals

variable {d : Decimal} {text w : String}

theorem fits_iff (hf : f.type ≠ .float) : ¬ Exceeds f (.decimal d) ↔ FitsFixed f d := by
  rw [Exceeds, if_neg hf, not_not]

theorem inRange_iff (hf : f.type = .float) : ¬ Exceeds f (.decimal d) ↔ |d.value| < 2 ^ 1024 - 2 ^ 970 := by
  rw [Exceeds, if_pos hf, not_not]

theorem encode_decimal_iff (hk : f.type.kind = .decimal) :
    encode f (.decimal d) = .ok w ↔ ¬ Exceeds f (.decimal d) ∧ w = wireText f (.decimal d) := by
  rw [encode_ok_iff]
  constructor
  · intro h
    exact ⟨h.1.2, h.2⟩
  · intro h
    exact ⟨⟨hk.symm, h.1⟩, h.2⟩

theorem exists_encode_decimal_iff (hk : f.type.kind = .decimal) :
    (∃ w, encode f (.decimal d) = .ok w) ↔ ¬ Exceeds f (.decimal d) := by
  constructor
  · intro h
    obtain ⟨w, hw⟩ := h
    exact ((encode_decimal_iff hk).mp hw).1
  · intro h
    exact ⟨_, (encode_decimal_iff hk).mpr ⟨h, rfl⟩⟩

/-- A wire string that reads as a decimal is judged as that decimal. -/
theorem decode_decimal_iff (hk : f.type.kind = .decimal) (hread : Decimal.read (Text.trim text.toList) = .ok d) :
    decode f text = .ok v ↔ v = .decimal d ∧ ¬ Exceeds f (.decimal d) := by
  have hvalue : readValue .decimal text = .ok (.decimal d) := by
    rw [readValue, hread]
    rfl
  rw [decode_eq_ok_iff, hk, hvalue]
  constructor
  · intro h
    obtain ⟨he, hwithin⟩ := h
    cases he
    exact ⟨rfl, hwithin⟩
  · intro h
    obtain ⟨rfl, hwithin⟩ := h
    exact ⟨rfl, hwithin⟩

end Decimals

end DocWire.Coercion
