/-
  DocWire.Proofs.Field.Stored — the digits that a receiver of a fixed-point field counts.

  A receiver has the wire string alone. Of a plain text it counts the places behind the point, and the digits before it
  but for a zero alone (`counts_plain`), and the text has room where neither count exceeds the declaration (`StoredIn`).
  A field is checked by the number, though, and the number has no superfluous zeros, while the text is written with the
  places of its scale. Without the zeros at the end of its places a text is the plain text of the normal form
  (`writesPlain_unpadded`), which is what was counted; those zeros take room that nothing checks.

  - `wires_stored`: what a field writes has room in it once the zeros at the end of the places are left away, and as it
    stands exactly where the scale is within the places and the digits that are declared. Where more places than digits
    are declared, there may be as many digits as places.
-/

import DocWire.Proofs.Field.FixedPoint
import DocWire.Proofs.Field.Readings
import Mathlib.Data.List.DropRight

namespace DocWire

open Number (Digits digitsValue isDigit)

/-! ## Counting the digits of a text -/

namespace Coercion

/-- The places of a wire string, behind its point. -/
def placesOf (w : String) : List Char := (w.toList.dropWhile (· != '.')).drop 1

/-- The digits of a wire string before its point; a zero alone is none. -/
def wholeOf (w : String) : List Char :=
  let whole := (w.toList.takeWhile (· != '.')).filter isDigit
  if whole = ['0'] then [] else whole

/-- A wire string without the zeros at the end of its places, and without the point where no place is left. -/
def unpadded (w : String) : String :=
  let kept := (placesOf w).rdropWhile (· == '0')
  String.ofList (w.toList.takeWhile (· != '.') ++ if kept = [] then [] else '.' :: kept)

/-- A fixed-point number of so many digits, so many of them behind the point, has room for a wire string. -/
def StoredIn (digits decimals : Nat) (w : String) : Prop :=
  (placesOf w).length ≤ decimals ∧ (wholeOf w).length + (placesOf w).length ≤ digits

instance (digits decimals : Nat) (w : String) : Decidable (StoredIn digits decimals w) :=
  inferInstanceAs (Decidable (_ ∧ _))

end Coercion

open Coercion (placesOf wholeOf unpadded StoredIn digitCounts)

/-! ## Plain texts -/

namespace PlainText

variable (t : PlainText)

theorem front : t.chars.takeWhile (· != '.') = (if t.negative then ['-'] else []) ++ t.whole ∧
    (t.chars.dropWhile (· != '.')).drop 1 = t.places := by
  have hfront : ∀ c ∈ (if t.negative then ['-'] else []) ++ t.whole, (c != '.') = true := by
    intro c hc
    rw [bne_iff_ne]
    rintro rfl
    rcases List.mem_append.mp hc with hc | hc
    · cases ht : t.negative <;> simp [ht] at hc
    · cases t.whole_digits _ hc
  rw [chars, List.takeWhile_append_of_pos hfront, List.dropWhile_append_of_pos hfront]
  by_cases hplaces : t.places = []
  · simp [hplaces]
  · simp [hplaces]

theorem placesOf_chars : placesOf (String.ofList t.chars) = t.places := by
  rw [placesOf, String.toList_ofList, t.front.2]

theorem wholeOf_chars : wholeOf (String.ofList t.chars) = if t.whole = ['0'] then [] else t.whole := by
  have hsign : (if t.negative then ['-'] else []).filter isDigit = [] := by cases t.negative <;> rfl
  have hwhole : t.whole.filter isDigit = t.whole := List.filter_eq_self.mpr t.whole_digits
  rw [wholeOf, String.toList_ofList, t.front.1, List.filter_append, hsign, hwhole, List.nil_append]

/-- The number as a decimal with the places of the text. -/
def decimal : Decimal :=
  ⟨(if t.negative then -1 else 1) * digitsValue (t.whole ++ t.places), t.places.length⟩

theorem value_decimal : t.decimal.value = t.value := by
  rw [Decimal.value, decimal, value, zpow_neg, zpow_natCast, ← div_eq_mul_inv]
  push_cast
  rfl

theorem abs_value : |t.value| = digitsValue (t.whole ++ t.places) / 10 ^ t.places.length := by
  rw [value, abs_div, abs_mul, Nat.abs_cast, abs_of_pos (by positivity : (0 : ℚ) < 10 ^ t.places.length)]
  cases t.negative <;> simp

/-- Digits that do not begin with a zero are those of a number that has no fewer. -/
theorem whole_lt_iff (k : Nat) : digitsValue t.whole < 10 ^ k ↔ (wholeOf (String.ofList t.chars)).length ≤ k := by
  rw [wholeOf_chars]
  by_cases hzero : t.whole = ['0']
  · rw [if_pos hzero, hzero]
    exact iff_of_true (Nat.pow_pos (by decide)) (Nat.zero_le k)
  rw [if_neg hzero]
  have hlt := Number.digitsValue_lt t.whole_digits
  obtain ⟨c, rest, hwhole⟩ := List.exists_cons_of_ne_nil t.whole_ne_nil
  have hc : isDigit c = true := t.whole_digits c (by simp [hwhole])
  have hhead : digitsValue [c] ≠ 0 := by
    intro h0
    have hc0 : c = '0' := Number.digit_eq_of_value hc rfl h0
    exact hzero (t.whole_head (by rw [hwhole, hc0]; rfl))
  have hvalue : digitsValue t.whole = digitsValue [c] * 10 ^ rest.length + digitsValue rest := by
    rw [hwhole]
    exact Number.digitsValue_append [c] rest
  have hge : 10 ^ rest.length ≤ digitsValue t.whole := by
    rw [hvalue]
    exact Nat.le_add_right_of_le (Nat.le_mul_of_pos_left _ (Nat.pos_of_ne_zero hhead))
  have hlen : t.whole.length = rest.length + 1 := by rw [hwhole, List.length_cons]
  constructor
  · intro h
    have := (Nat.pow_lt_pow_iff_right (by decide : 1 < 10)).mp (Nat.lt_of_le_of_lt hge h)
    omega
  · intro h
    exact Nat.lt_of_lt_of_le hlt (Nat.pow_le_pow_right (by decide) h)

/-- The digits before the point are the fewest whose power of ten is above the number. -/
theorem wholeOf_le_iff (k : Nat) : (wholeOf (String.ofList t.chars)).length ≤ k ↔ |t.value| < 10 ^ k := by
  have hrest := Number.digitsValue_lt t.places_digits
  have hpos : 0 < 10 ^ t.places.length := Nat.pow_pos (by decide)
  have hsplit : |t.value| < 10 ^ k ↔ digitsValue (t.whole ++ t.places) < 10 ^ k * 10 ^ t.places.length := by
    rw [abs_value, div_lt_iff₀ (by positivity)]
    exact_mod_cast Iff.rfl
  rw [hsplit, Number.digitsValue_append, ← whole_lt_iff]
  constructor
  · intro h
    calc digitsValue t.whole * 10 ^ t.places.length + digitsValue t.places
        < (digitsValue t.whole + 1) * 10 ^ t.places.length := by rw [Nat.add_mul, Nat.one_mul]; omega
      _ ≤ 10 ^ k * 10 ^ t.places.length := Nat.mul_le_mul_right _ h
  · intro h
    exact Nat.lt_of_mul_lt_mul_right (Nat.lt_of_le_of_lt (Nat.le_add_right _ _) h)

/-- The text without the zeros at the end of its places. -/
def shortened : PlainText :=
  { t with
    places := t.places.rdropWhile (· == '0')
    places_digits := t.places_digits.of_subset (List.rdropWhile_prefix _ _).subset }

theorem unpadded_chars : unpadded (String.ofList t.chars) = String.ofList t.shortened.chars := by
  rw [unpadded, placesOf_chars, String.toList_ofList, t.front.1]
  rfl

theorem shortened_value : t.shortened.value = t.value := by
  obtain ⟨k, hk⟩ : ∃ k, t.places = t.shortened.places ++ List.replicate k '0' := by
    refine ⟨(t.places.rtakeWhile (· == '0')).length, ?_⟩
    have hzeros : t.places.rtakeWhile (· == '0') = List.replicate (t.places.rtakeWhile (· == '0')).length '0' :=
      List.eq_replicate_iff.mpr ⟨rfl, fun c hc => by simpa using List.mem_rtakeWhile_imp hc⟩
    rw [← hzeros]
    exact List.rdropWhile_append_rtakeWhile.symm
  have hvalue : digitsValue (t.whole ++ t.places) = digitsValue (t.whole ++ t.shortened.places) * 10 ^ k := by
    rw [hk, ← List.append_assoc, Number.digitsValue_append, Number.digitsValue_zeros, List.length_replicate, Nat.add_zero]
  have hlen : t.places.length = t.shortened.places.length + k := by
    conv_lhs => rw [hk, List.length_append, List.length_replicate]
  rw [value, value, hvalue, hlen, pow_add]
  push_cast
  rw [← mul_assoc, mul_div_mul_right _ _ (by positivity)]
  rfl

/-- The places that are left are the fewest that leave a whole number. -/
theorem shortened_le_iff (k : Nat) : t.shortened.places.length ≤ k ↔ ∃ n : ℤ, t.value * 10 ^ k = n := by
  rw [← shortened_value, ← value_decimal]
  by_cases hnil : t.shortened.places = []
  · refine iff_of_true (by simp [hnil]) ⟨t.shortened.decimal.mantissa * 10 ^ k, ?_⟩
    simp [Decimal.value, decimal, hnil]
  · have hlast : ¬ (10 : ℤ) ∣ t.shortened.decimal.mantissa := by
      intro hdvd
      obtain ⟨front, c, hplaces⟩ := (List.eq_nil_or_concat t.shortened.places).resolve_left hnil
      have hnonzero : c ≠ '0' := by
        have hlast := List.rdropWhile_last_not (· == '0') t.places hnil
        have hplaces' : t.places.rdropWhile (· == '0') = front ++ [c] := hplaces.trans (List.concat_eq_append)
        simp only [hplaces', List.getLast_append_singleton, beq_iff_eq] at hlast
        exact hlast
      have hdigit : isDigit c = true := t.shortened.places_digits c (by simp [hplaces])
      have hvalue : digitsValue (t.shortened.whole ++ t.shortened.places) =
          digitsValue (t.shortened.whole ++ front) * 10 + digitsValue [c] := by
        rw [hplaces, List.concat_eq_append, ← List.append_assoc, Number.digitsValue_append]
        rfl
      have habs := Int.natAbs_dvd_natAbs.mpr hdvd
      have hlt := Number.digitsValue_digit hdigit
      have hmantissa : t.shortened.decimal.mantissa.natAbs = digitsValue (t.shortened.whole ++ t.shortened.places) := by
        rw [decimal]
        cases t.shortened.negative <;> simp
      rw [hmantissa, hvalue] at habs
      exact hnonzero (Number.digit_eq_of_value hdigit rfl (show digitsValue [c] = 0 by omega))
    rw [Decimal.whole_iff hlast k]
    exact Nat.cast_le.symm

end PlainText

/-! ## Fixed-point fields -/

namespace Decimal

variable {d : Decimal} {w : String}

theorem scale_normal (d : Decimal) : d.normal.scale.toNat = (digitCounts d).2 := by
  by_cases hd : d.mantissa = 0
  · rw [Coercion.digitCounts_zero hd, normal, if_pos hd]
    rfl
  · rw [Coercion.digitCounts_eq hd]

theorem wholeDigits_normal (d : Decimal) : (digitCounts d.normal).1 = (digitCounts d).1 := by
  refine eq_of_forall_ge_iff fun k => ?_
  rw [Coercion.wholeDigits_le_iff, Coercion.wholeDigits_le_iff, value_normal]

/-- A plain text of a decimal shows its scale and the size of its number. -/
theorem counts_plain (h : d.WritesPlain w) :
    (placesOf w).length = d.scale.toNat ∧ (wholeOf w).length = (digitCounts d).1 := by
  obtain ⟨t, rfl, -, hplaces, hvalue⟩ := h
  refine ⟨by rw [t.placesOf_chars, hplaces], eq_of_forall_ge_iff fun k => ?_⟩
  rw [t.wholeOf_le_iff, hvalue, Coercion.wholeDigits_le_iff]

/-- Without the zeros at the end of its places, it is a plain text of the normal form. -/
theorem writesPlain_unpadded (h : d.WritesPlain w) : d.normal.WritesPlain (unpadded w) := by
  obtain ⟨t, rfl, hnegative, -, hvalue⟩ := h
  refine ⟨t.shortened, t.unpadded_chars, ?_, ?_, ?_⟩
  · rw [value_normal]
    exact hnegative
  · refine eq_of_forall_ge_iff fun k => ?_
    rw [t.shortened_le_iff, hvalue, scale_normal, Coercion.places_le_iff]
  · rw [t.shortened_value, hvalue, value_normal]

end Decimal

namespace Coercion

variable {f : Format} {d : Decimal} {w : String}

/-- A field checks the digits that are left when the zeros at the end of the places are. -/
theorem wires_stored (hf : IsFixedPoint f.type) (hlength : 0 < f.length) (h : encode f (.decimal d) = .ok w) :
    StoredIn (max f.length f.decimals) f.decimals (unpadded w) ∧ d.normal.WritesPlain (unpadded w) ∧
    (placesOf w).length = d.scale.toNat ∧
    (StoredIn f.length f.decimals w ↔ d.scale ≤ f.decimals ∧ d.scale ≤ f.length) := by
  obtain ⟨hkind, hfloat⟩ := hf.kind
  obtain ⟨hwithin, rfl⟩ := (encode_decimal_iff hkind).mp h
  rw [wireText, if_neg hfloat]
  obtain ⟨-, hroom⟩ := (fits_iff hfloat).mp hwithin
  obtain ⟨hwhole, hsize⟩ := hroom.resolve_left (by omega)
  have hplaces : (digitCounts d).2 ≤ f.decimals := (places_le_iff d _).mpr hwhole
  have hdigits : (digitCounts d).1 ≤ f.length - f.decimals := (wholeDigits_le_iff d _).mpr hsize
  have hshort := Decimal.writesPlain_unpadded d.writesPlain
  obtain ⟨hcount, hfront⟩ := Decimal.counts_plain d.writesPlain
  obtain ⟨hcount', hfront'⟩ := Decimal.counts_plain hshort
  rw [Decimal.scale_normal] at hcount'
  rw [Decimal.wholeDigits_normal] at hfront'
  refine ⟨⟨by omega, by omega⟩, hshort, hcount, ?_⟩
  rw [StoredIn, hcount, hfront]
  omega

/-- An amount of 123.40 is stored as it stands, since no more than two places are written. -/
theorem wires_stored_amount :
    encode ⟨.currency, 5, 2⟩ (.decimal ⟨12340, 2⟩) = .ok "123.40" ∧ unpadded "123.40" = "123.4" ∧
    StoredIn 5 2 "123.40" := by
  have hwire : encode ⟨.currency, 5, 2⟩ (.decimal ⟨12340, 2⟩) = .ok "123.40" := by rfl
  obtain ⟨-, -, -, hstored⟩ := wires_stored (.inr (.inl rfl)) (by decide) hwire
  exact ⟨hwire, by decide +kernel, hstored.mpr (by decide)⟩

/-- A packed number of five digits with two places is given seven places, and one of two digits is given five digits. -/
theorem wires_oversized :
    (encode ⟨.packed, 5, 2⟩ (.decimal ⟨12300000, 7⟩) = .ok "1.2300000" ∧ ¬ StoredIn 5 2 "1.2300000") ∧
    (encode ⟨.packed, 2, 5⟩ (.decimal ⟨12345, 5⟩) = .ok "0.12345" ∧ ¬ StoredIn 2 5 "0.12345") := by
  refine ⟨⟨by rfl, by decide +kernel⟩, ⟨by rfl, by decide +kernel⟩⟩

end Coercion

end DocWire
