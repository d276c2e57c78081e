/-
  DocWire.Proofs.Field.Coercion — what a value comes back as.

  `Recovered` says what may become of a value between writing and reading: text is cut to its declared
  length, a floating-point decimal is the one with the shortest digits of the same binary number, another
  decimal is the same number, and everything else is the same value. `decodeWire_encode`: a wire string that
  was written reads back, never as unset, and to a value that is recovered.
-/

import DocWire.Proofs.Field.Acceptance
import DocWire.Proofs.Field.Forms
import DocWire.Proofs.Number.Binary64

namespace DocWire

open Number (isDigit)

/-- Equality as numbers: the two zeros are one. -/
def Binary64.Same (x y : Binary64) : Prop :=
  x.magnitude = y.magnitude ∧ (x.negative = y.negative ∨ x.magnitude = .finite 0)

namespace Coercion

/-- What a value of a field's kind may come back as. -/
def Recovered (f : Format) : Value → Value → Prop
  | .text s, w => w = .text (cutText f.length s)
  | .decimal a, .decimal b =>
    if f.type = .float then
      Binary64.Same (.ofDecimal a) (.ofDecimal b) ∧
        ∃ units, (Binary64.ofDecimal a).magnitude = .finite units ∧ b = Binary64.shortest a.isNegative units
    else a.sameValue b = true
  | v, w => v = w

theorem decodeWire_of_read {f : Format} {w : String} {v : Value}
    (hne : w.isEmpty = false ∨ hasEmptyForm f.type.kind = true) (hread : readValue f.type.kind w = .ok v)
    (hrange : rangeFault? f v = none) : decodeWire f w = .ok (some v) := by
  have hcond : (w.isEmpty && !hasEmptyForm f.type.kind) = false := by
    rcases hne with h | h
    · rw [h, Bool.false_and]
    · rw [h, Bool.not_true, Bool.and_false]
  rw [decodeWire, hcond, if_neg Bool.false_ne_true, decode_eq_ok.mpr ⟨hread, hrange⟩]
  rfl

theorem isEmpty_ofList {s : List Char} (h : s ≠ []) : (String.ofList s).isEmpty = false := by
  simp [h]

/-! ## Characters of numbers -/

/-- A character of a written number. -/
def Numeral (c : Char) : Prop := isDigit c = true ∨ c = '-' ∨ c = '.' ∨ c = 'E'

theorem Numeral.not_blank {c : Char} (h : Numeral c) : Text.isBlank c = false := by
  rcases h with h | rfl | rfl | rfl
  · exact Text.isBlank_of_isDigit h
  · decide
  · decide
  · decide

theorem trim_numerals {s : List Char} (h : ∀ c ∈ s, Numeral c) : Text.trim (String.ofList s).toList = s := by
  rw [String.toList_ofList, Text.trim_eq_self fun c hc => (h c hc).not_blank]

theorem numeral_intChars (n : Int) : ∀ c ∈ Number.intChars n, Numeral c := by
  intro c hc
  rw [Number.intChars] at hc
  rcases List.mem_append.mp hc with hc | hc
  · split at hc
    · exact .inr (.inl (List.mem_singleton.mp hc))
    · cases hc
  · exact .inl (Number.digits_digits _ c hc)

theorem intChars_ne_nil (n : Int) : Number.intChars n ≠ [] := by
  simp [Number.intChars, Number.digits_ne_nil]

theorem numeral_parts {negative : Bool} {whole fraction behind : List Char} (hw : Number.Digits whole)
    (hf : Number.Digits fraction) (hb : Decimal.Behind fraction behind) :
    ∀ c ∈ (if negative then ['-'] else []) ++ (whole ++ behind), Numeral c := by
  intro c hc
  simp only [List.mem_append] at hc
  rcases hc with hc | hc | hc
  · split at hc
    · exact .inr (.inl (List.mem_singleton.mp hc))
    · cases hc
  · exact .inl (hw c hc)
  · cases hb with
    | point =>
      rcases List.mem_cons.mp hc with rfl | hc
      · exact .inr (.inr (.inl rfl))
      · exact .inl (hf c hc)
    | whole _ => cases hc

theorem numeral_plainChars (d : Decimal) : (∀ c ∈ d.plainChars, Numeral c) ∧ d.plainChars ≠ [] := by
  obtain ⟨whole, fraction, behind, hw, hne, hf, hb, hparts, -, -, -, -⟩ := Decimal.plainDigits_parts d
  rw [Decimal.plainChars, Decimal.sign, hparts]
  exact ⟨numeral_parts hw hf hb, by simp [hne]⟩

theorem numeral_exponentChars (negative : Bool) (units : Nat) :
    (∀ c ∈ Binary64.exponentChars ⟨negative, .finite units⟩, Numeral c) ∧
      Binary64.exponentChars ⟨negative, .finite units⟩ ≠ [] := by
  simp only [Binary64.exponentChars]
  generalize Magnitude.shortest units = d
  obtain ⟨whole, fraction, behind, hw, hne, hf, hb, hparts, -, -⟩ :=
    Decimal.leadingPoint_parts (Number.digits_digits d.mantissa.natAbs) (Number.digits_ne_nil _)
  rw [Decimal.digits, hparts]
  refine ⟨fun c hc => ?_, by simp [hne]⟩
  rw [← List.append_assoc] at hc
  rcases List.mem_append.mp hc with hc | hc
  · exact numeral_parts hw hf hb c hc
  · rcases List.mem_cons.mp hc with rfl | hc
    · exact .inr (.inr (.inr rfl))
    · exact numeral_intChars _ c hc

/-! ## Each kind -/

theorem decodeWire_integer {f : Format} {n : Int} (hk : f.type.kind = .integer) (hr : integerFault? f.type n = none) :
    decodeWire f (String.ofList (Number.intChars n)) = .ok (some (.integer n)) := by
  refine decodeWire_of_read (.inl (isEmpty_ofList (intChars_ne_nil n))) ?_ hr
  rw [hk, readValue, trim_numerals (numeral_intChars n), Number.readInteger_intChars]
  rfl

/-- A limit sees the value of a decimal, and its scale only where that is too large. -/
theorem decimalFault?_settled {f : Format} {d : Decimal} (h : decimalFault? f d = none) :
    decimalFault? f d.settled = none ∧ d.scale.natAbs ≤ maxPlainScale := by
  have hcounts : digitCounts d.settled = digitCounts d := by
    simp only [digitCounts, Decimal.normal_settled]
  unfold decimalFault? at h
  split at h
  · cases h
  rename_i hscale
  have hsettled : ¬ maxPlainScale < d.settled.scale.natAbs := by
    unfold Decimal.settled
    split
    · show ¬ maxPlainScale < (0 : Int).natAbs
      decide
    · exact hscale
  refine ⟨?_, Nat.not_lt.mp hscale⟩
  rw [decimalFault?, if_neg hsettled, hcounts]
  exact h

theorem decodeWire_decimal {f : Format} {d : Decimal} (hk : f.type.kind = .decimal) (hf : f.type ≠ .float)
    (hr : decimalFault? f d = none) : decodeWire f d.plain = .ok (some (.decimal d.settled)) := by
  obtain ⟨hsettled, hscale⟩ := decimalFault?_settled hr
  obtain ⟨hchars, hne⟩ := numeral_plainChars d
  refine decodeWire_of_read (.inl (isEmpty_ofList hne)) ?_ ?_
  · have hlt : d.scale.natAbs < 2 ^ 63 := Nat.lt_of_le_of_lt hscale (by decide)
    rw [hk, readValue, Decimal.plain, trim_numerals hchars, Decimal.read_plainChars hlt]
    rfl
  · rw [rangeFault?, if_neg hf, hsettled]

theorem decodeWire_float {f : Format} {d : Decimal} (hf : f.type = .float) (hr : floatFault? d = none) :
    ∃ units, (Binary64.ofDecimal d).magnitude = .finite units ∧
      decodeWire f (Binary64.ofDecimal d).exponentText = .ok (some (.decimal (Binary64.shortest d.isNegative units))) ∧
      Binary64.Same (.ofDecimal d) (.ofDecimal (Binary64.shortest d.isNegative units)) := by
  have hfinite : (Binary64.ofDecimal d).isFinite = true := by
    unfold floatFault? at hr
    split at hr
    · assumption
    · cases hr
  obtain ⟨units, hunits⟩ : ∃ units, Magnitude.ofDecimal d.mantissa.natAbs d.scale = .finite units := by
    cases hm : Magnitude.ofDecimal d.mantissa.natAbs d.scale with
    | finite units => exact ⟨units, rfl⟩
    | infinite =>
      rw [Binary64.isFinite, Binary64.ofDecimal, hm] at hfinite
      cases hfinite
  obtain ⟨hround, hlt⟩ := Magnitude.ofDecimal_idem hunits
  have hx : Binary64.ofDecimal d = ⟨d.isNegative, .finite units⟩ := by rw [Binary64.ofDecimal, hunits]
  obtain ⟨hchars, hne⟩ := numeral_exponentChars d.isNegative units
  have hback : Binary64.ofDecimal (Binary64.shortest d.isNegative units) = ⟨d.isNegative && units != 0, .finite units⟩ :=
    Binary64.ofDecimal_shortest hround hlt
  refine ⟨units, by rw [hx], ?_, ?_⟩
  · rw [hx]
    refine decodeWire_of_read (.inl (isEmpty_ofList hne)) ?_ ?_
    · rw [hf, Binary64.exponentText, DataType.kind, readValue, trim_numerals hchars,
        Binary64.read_exponentChars hround hlt]
      rfl
    · rw [rangeFault?, if_pos hf, floatFault?, hback]
      rfl
  · rw [hx, hback]
    refine ⟨rfl, ?_⟩
    by_cases h0 : units = 0
    · rw [h0]
      exact .inr rfl
    · exact .inl (by simp [h0])

theorem decodeWire_date {f : Format} {d : Date} (hk : f.type.kind = .date) (hr : dateFault? d = none) :
    decodeWire f d.compact = .ok (some (.date d)) := by
  have hyear : 0 ≤ d.year ∧ d.year ≤ 9999 := by
    unfold dateFault? at hr
    split at hr
    · assumption
    · cases hr
  refine decodeWire_of_read (.inl (isEmpty_ofList ?_)) ?_ hr
  · simp [Date.compactChars, Calendar.padded, Number.digits_ne_nil]
  · rw [hk, readValue, Date.compact, String.toList_ofList, readDate_compactChars hyear]
    rfl

theorem decodeWire_time {f : Format} {t : Time} (hk : f.type.kind = .time) (hr : timeFault? t = none) :
    decodeWire f t.compact = .ok (some (.time t)) := by
  have hnano : t.nano = 0 := by
    unfold timeFault? at hr
    split at hr
    · assumption
    · cases hr
  refine decodeWire_of_read (.inl (isEmpty_ofList ?_)) ?_ hr
  · simp [Time.compactChars, Calendar.padded, Number.digits_ne_nil]
  · rw [hk, readValue, Time.compact, String.toList_ofList, readTime_compactChars hnano]
    rfl

/-! ## Every value -/

/-- A wire string that was written reads back, to a value that is recovered. -/
theorem decodeWire_encode {f : Format} {v : Value} {w : String} (h : encode f v = .ok w) :
    ∃ v', decodeWire f w = .ok (some v') ∧ Recovered f v v' := by
  obtain ⟨hk, hr, rfl⟩ := encode_eq_ok.mp h
  cases v with
  | text s =>
    refine ⟨.text (cutText f.length s), decodeWire_of_read (.inr (by rw [← hk]; rfl)) ?_ rfl, rfl⟩
    rw [← hk]
    rfl
  | integer n => exact ⟨_, decodeWire_integer hk.symm hr, rfl⟩
  | decimal d =>
    by_cases hf : f.type = .float
    · simp only [rangeFault?, hf, if_true] at hr
      obtain ⟨units, hunits, hdecode, hsame⟩ := decodeWire_float hf hr
      refine ⟨.decimal (Binary64.shortest d.isNegative units), ?_, ?_⟩
      · rw [wireText, if_pos hf]
        exact hdecode
      · simp only [Recovered, hf, if_true]
        exact ⟨hsame, units, hunits, rfl⟩
    · simp only [rangeFault?, hf, if_false] at hr
      refine ⟨.decimal d.settled, ?_, ?_⟩
      · rw [wireText, if_neg hf]
        exact decodeWire_decimal hk.symm hf hr
      · simp [Recovered, hf, Decimal.sameValue, Decimal.normal_settled]
  | date d => exact ⟨_, decodeWire_date hk.symm hr, rfl⟩
  | time t => exact ⟨_, decodeWire_time hk.symm hr, rfl⟩
  | bytes b =>
    refine ⟨.bytes b, decodeWire_of_read (.inr (by rw [← hk]; rfl)) ?_ hr, rfl⟩
    rw [← hk]
    show ((Hex.decode (Hex.encode b)).mapError TextFault.bytes).map Value.bytes = .ok (.bytes b)
    rw [Hex.decode_encode]
    rfl

end Coercion

end DocWire
