/-
  DocWire.Proofs.Number.Plain — the plain form of a decimal, as a text and in machine words.

  A plain text is a sign or none, digits without a superfluous zero in front, and behind a point the places, if there
  are any; there is no exponent in it. The plain form of a decimal is one, with as many places as the scale says above
  zero, and stands for the same number (`writesPlain`).

  The second part takes the same steps as a machine does that counts in words of 64 bits: a difference must not fall
  below zero, a sum must stay in a word, and a text is cut within its length. Each step is `none` where it cannot be
  taken. With a mantissa that fits into memory every step can, for counting the digits with a scale that is written out
  (`digitCounts?_eq`), and for writing them with any scale (`plainChars?_eq`).
-/

import DocWire.Field.Coercion
import DocWire.Proofs.Number.Value

namespace DocWire

open Number (Digits digitsValue)

/-- A number written in digits. -/
structure PlainText where
  negative : Bool
  whole : List Char
  places : List Char
  whole_digits : Digits whole
  whole_ne_nil : whole ≠ []
  /-- A zero in front is the only digit before the point. -/
  whole_head : whole.head? = some '0' → whole = ['0']
  places_digits : Digits places

namespace PlainText

/-- Sign, digits, and a point where places are behind it. -/
def chars (t : PlainText) : List Char :=
  (if t.negative then ['-'] else []) ++ t.whole ++ if t.places = [] then [] else '.' :: t.places

/-- The number that the digits write, each place a tenth of the one before. -/
def value (t : PlainText) : ℚ :=
  (if t.negative then -1 else 1) * digitsValue (t.whole ++ t.places) / 10 ^ t.places.length

end PlainText

namespace Decimal

theorem signed_mantissa (d : Decimal) : ((if d.isNegative then -1 else 1) * (d.mantissa.natAbs : ℚ)) = d.mantissa := by
  rw [Nat.cast_natAbs, Int.cast_abs]
  by_cases h : d.mantissa < 0
  · rw [isNegative, decide_eq_true h, if_pos rfl, abs_of_neg (Int.cast_lt_zero.mpr h), neg_one_mul, neg_neg]
  · rw [isNegative, decide_eq_false h, if_neg Bool.false_ne_true, one_mul,
      abs_of_nonneg (Int.cast_nonneg (Int.not_lt.mp h))]

theorem settled_scale (d : Decimal) : d.settled.scale = (d.scale.toNat : ℤ) := by
  unfold settled
  split
  · rename_i h
    rw [Int.toNat_of_nonpos h]
    rfl
  · omega

/-- A plain text of the same number: a minus sign below zero, and as many places as the scale says above zero. -/
def WritesPlain (d : Decimal) (w : String) : Prop :=
  ∃ t : PlainText, w = String.ofList t.chars ∧ (t.negative = true ↔ d.value < 0) ∧
    t.places.length = d.scale.toNat ∧ t.value = d.value

theorem writesPlain (d : Decimal) : d.WritesPlain d.plain := by
  obtain ⟨whole, places, behind, hw, hne, hp, hb, hparts, hscale, hvalue, hpoint, hhead⟩ := plainDigits_parts d
  rw [settled_scale] at hscale
  have hlen : places.length = d.scale.toNat := by exact_mod_cast hscale
  have hbehind : behind = if places = [] then [] else '.' :: places := by
    by_cases hnil : places = []
    · rw [if_pos hnil, hpoint hnil]
    · rw [if_neg hnil]
      cases hb with
      | point => rfl
      | whole h => exact absurd h hnil
  refine ⟨⟨d.isNegative, whole, places, hw, hne, hhead, hp⟩, ?_, isNegative_iff, hlen, ?_⟩
  · rw [plain, plainChars, sign, hparts, hbehind, PlainText.chars, List.append_assoc]
  · have hsigned : ((if d.isNegative then -1 else 1) * (d.settled.mantissa.natAbs : ℚ)) = d.settled.mantissa := by
      rw [← settled_isNegative, signed_mantissa]
    rw [PlainText.value, hvalue, hsigned, hlen, ← value_settled d, value, settled_scale, zpow_neg, zpow_natCast,
      div_eq_mul_inv]

end Decimal

/-! ## Words -/

namespace Word

/-- A difference of two words. -/
def sub? (a b : Nat) : Option Nat := if b ≤ a then some (a - b) else none

/-- A sum of two words. -/
def add? (a b : Nat) : Option Nat := if a + b < 2 ^ 64 then some (a + b) else none

/-- A text before and behind a position. -/
def cut? (s : List Char) (i : Nat) : Option (List Char × List Char) :=
  if i ≤ s.length then some (s.take i, s.drop i) else none

theorem sub?_eq {a b : Nat} (h : b ≤ a) : sub? a b = some (a - b) := if_pos h

theorem add?_eq {a b : Nat} (h : a + b < 2 ^ 64) : add? a b = some (a + b) := if_pos h

theorem cut?_eq {s : List Char} {i : Nat} (h : i ≤ s.length) : cut? s i = some (s.take i, s.drop i) := if_pos h

end Word

namespace Decimal

open Word (sub? add? cut?)

/-- The digits before and behind the point, counted in words; the difference stops at zero. -/
def digitCounts? (d : Decimal) : Option (Nat × Nat) :=
  let n := d.normal
  if n.mantissa = 0 then some (0, 0)
  else if 0 ≤ n.scale then some (n.digits.length - n.scale.natAbs, n.scale.natAbs)
  else (add? n.digits.length n.scale.natAbs).map (·, 0)

/-- The digits of the plain form without its sign, put together in words. -/
def plainDigits? (digits : List Char) (scale : Int) : Option (List Char) :=
  if scale ≤ 0 then some (if digits = ['0'] then digits else digits ++ zeros scale.natAbs)
  else if scale.natAbs < digits.length then
    (sub? digits.length scale.natAbs).bind fun front =>
      (cut? digits front).map fun (whole, places) => whole ++ '.' :: places
  else
    (sub? scale.natAbs digits.length).map fun missing => '0' :: '.' :: (zeros missing ++ digits)

/-- The plain form, with room for its digits, a sign and a point. -/
def plainChars? (d : Decimal) : Option (List Char) :=
  (add? d.digits.length 2).bind fun _ => (plainDigits? d.digits d.scale).map (d.sign ++ ·)

/-- A text has fewer than 2^63 characters, so counting digits never leaves a word. -/
theorem digitCounts?_eq {d : Decimal} (hs : d.scale.natAbs ≤ Coercion.maxPlainScale) (hlen : d.digits.length < 2 ^ 63) :
    digitCounts? d = some (Coercion.digitCounts d) := by
  simp only [digitCounts?, Coercion.digitCounts]
  by_cases hm : d.normal.mantissa = 0
  · rw [if_pos hm, if_pos hm]
  rw [if_neg hm, if_neg hm]
  by_cases hn : 0 ≤ d.normal.scale
  · rw [if_pos hn, if_pos hn]
  rw [if_neg hn, if_neg hn]
  -- the zeros that left the mantissa are those by which the scale fell
  have hd : d.mantissa ≠ 0 := by
    intro h0
    rw [normal, if_pos h0] at hm
    exact hm rfl
  have hscale := scale_eq_normal d hd
  have hzeros := length_digits_normal d hd
  have hbound : d.scale.natAbs ≤ 4096 := hs
  rw [Word.add?_eq (by omega)]
  rfl

theorem plainDigits?_eq (digits : List Char) (scale : Int) : plainDigits? digits scale = some (plainDigits digits scale) := by
  unfold plainDigits? plainDigits pointed
  by_cases hs : scale ≤ 0
  · rw [if_pos hs, if_pos hs]
  rw [if_neg hs, if_neg hs]
  by_cases hlt : scale.natAbs < digits.length
  · rw [if_pos hlt, if_pos hlt, Word.sub?_eq (Nat.le_of_lt hlt), Option.bind_some, Word.cut?_eq (Nat.sub_le _ _)]
    rfl
  · rw [if_neg hlt, if_neg hlt, Word.sub?_eq (Nat.not_lt.mp hlt)]
    rfl

/-- Nor does putting the plain form together: what is cut and what is filled up has its length from a comparison. -/
theorem plainChars?_eq {d : Decimal} (hlen : d.digits.length < 2 ^ 63) : plainChars? d = some d.plainChars := by
  rw [plainChars?, Word.add?_eq (by omega), Option.bind_some, plainDigits?_eq]
  rfl

end Decimal

end DocWire
