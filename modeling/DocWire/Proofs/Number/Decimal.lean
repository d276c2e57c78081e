/-
  DocWire.Proofs.Number.Decimal — decimals, written and read.

  `read_number` is the one fact about the reader: a sign, digits, a point with digits behind it or none, an
  exponent or none. The plain form reads back to `settled`: the same number, with the zeros of a negative
  scale written out. The normal form does not see such zeros, so the two are the same value.
-/

import DocWire.Number.Decimal
import DocWire.Proofs.Number.Digits
import Mathlib.Algebra.Order.Group.Unbundled.Int
import Mathlib.Data.List.TakeWhile

namespace DocWire.Decimal

open Number (Digits digitsValue isDigit intChars readInteger readBounded)

/-! ## The normal form -/

theorem trailingZeros_append (ds : List Char) (k : Nat) :
    trailingZeros (ds ++ List.replicate k '0') = k + trailingZeros ds := by
  have hall : ∀ c ∈ List.replicate k '0', (c == '0') = true := fun c hc => by
    rw [(List.mem_replicate.mp hc).2]
    rfl
  simp only [trailingZeros, List.reverse_append, List.reverse_replicate]
  rw [List.takeWhile_append_of_pos hall, List.length_append, List.length_replicate]

/-- A factor of ten in the mantissa and one in the scale are the same. -/
theorem normal_mul_pow (m s : Int) (k : Nat) : normal ⟨m * 10 ^ k, s⟩ = normal ⟨m, s - k⟩ := by
  by_cases hm : m = 0
  · simp [normal, hm]
  have hpow : (0 : Int) < 10 ^ k := Int.pow_pos (by decide)
  have hmul : m * 10 ^ k ≠ 0 := Int.mul_ne_zero hm (Int.ne_of_gt hpow)
  have habs : (m * 10 ^ k).natAbs = m.natAbs * 10 ^ k := by
    rw [Int.natAbs_mul, Int.natAbs_pow]
    rfl
  have hz : trailingZeros (Decimal.mk (m * 10 ^ k) s).digits = k + trailingZeros (Decimal.mk m (s - k)).digits := by
    show trailingZeros (Number.digits (m * 10 ^ k).natAbs) = k + trailingZeros (Number.digits m.natAbs)
    rw [habs, Number.digits_mul_pow (Int.natAbs_pos.mpr hm), trailingZeros_append]
  simp only [normal, hm, hmul, if_false, hz]
  congr 1
  · rw [Nat.pow_eq, Nat.pow_eq, Nat.cast_pow, Nat.cast_pow, Nat.cast_ofNat, pow_add, Int.mul_comm m,
      Int.mul_ediv_mul_of_pos _ _ hpow]
  · push_cast
    omega

theorem pow_trailingZeros_dvd (n : Nat) : 10 ^ trailingZeros (Number.digits n) ∣ n := by
  obtain ⟨pre, hpre⟩ : ∃ pre, Number.digits n = pre ++ List.replicate (trailingZeros (Number.digits n)) '0' := by
    refine ⟨((Number.digits n).reverse.dropWhile (· == '0')).reverse, ?_⟩
    have hall : (Number.digits n).reverse.takeWhile (· == '0') = List.replicate (trailingZeros (Number.digits n)) '0' :=
      List.eq_replicate_iff.mpr ⟨rfl, fun c hc => by simpa using List.mem_takeWhile_imp hc⟩
    have hsplit := List.takeWhile_append_dropWhile (p := (· == '0')) (l := (Number.digits n).reverse)
    rw [hall] at hsplit
    have := congrArg List.reverse hsplit
    rw [List.reverse_append, List.reverse_replicate, List.reverse_reverse] at this
    exact this.symm
  refine ⟨digitsValue pre, ?_⟩
  have hvalue := congrArg digitsValue hpre
  rw [Number.digitsValue_digits, Number.digitsValue_append, Number.digitsValue_zeros, List.length_replicate,
    Nat.mul_comm] at hvalue
  omega

theorem mantissa_eq_normal (d : Decimal) (hd : d.mantissa ≠ 0) :
    d.mantissa = d.normal.mantissa * 10 ^ trailingZeros d.digits := by
  have hdvd : (10 : Int) ^ trailingZeros d.digits ∣ d.mantissa := by
    have := Int.natCast_dvd_natCast.mpr (pow_trailingZeros_dvd d.mantissa.natAbs)
    push_cast at this
    exact (dvd_abs _ _).mp this
  simp only [normal, hd, if_false]
  exact (Int.ediv_mul_cancel hdvd).symm

theorem scale_eq_normal (d : Decimal) (hd : d.mantissa ≠ 0) :
    d.scale = d.normal.scale + trailingZeros d.digits := by
  simp only [normal, hd, if_false]
  omega

theorem trailingZeros_le_length (ds : List Char) : trailingZeros ds ≤ ds.length := by
  rw [trailingZeros, ← ds.length_reverse]
  exact (List.takeWhile_sublist _).length_le

/-- The normal form differs from a number by zeros, no more than the number has digits. -/
theorem eq_normal (d : Decimal) (hd : d.mantissa ≠ 0) :
    ∃ z : Nat, z ≤ d.digits.length ∧ d.mantissa = d.normal.mantissa * 10 ^ z ∧ d.scale = d.normal.scale + z :=
  ⟨_, trailingZeros_le_length _, mantissa_eq_normal d hd, scale_eq_normal d hd⟩

/-- What the plain form stands for: the number itself, without a scale below 0. -/
def settled (d : Decimal) : Decimal := if d.scale ≤ 0 then ⟨d.mantissa * 10 ^ d.scale.natAbs, 0⟩ else d

theorem normal_settled (d : Decimal) : d.settled.normal = d.normal := by
  unfold settled
  split
  · rename_i hs
    rw [normal_mul_pow]
    congr 2
    omega
  · rfl

/-! ## The reader -/

theorem not_isExponentMark_of_isDigit {c : Char} (h : isDigit c = true) : isExponentMark c = false := by
  simp only [isExponentMark, Bool.or_eq_false_iff, beq_eq_false_iff_ne]
  constructor
  · rintro rfl
    cases h
  · rintro rfl
    cases h

/-- What stands behind the digits before the point: a point and more digits, or nothing. -/
inductive Behind (fraction : List Char) : List Char → Prop
  | point : Behind fraction ('.' :: fraction)
  | whole : fraction = [] → Behind fraction []

/-- What stands behind all digits: an exponent or nothing. -/
inductive Exponent (e : Int) : List Char → Prop
  | mark : e.natAbs < 2 ^ 127 → Exponent e ('E' :: intChars e)
  | plus (n : Nat) : n < 2 ^ 127 → e = n → Exponent e ('e' :: '+' :: Number.digits n)
  | absent : e = 0 → Exponent e []

theorem readExponent_append (base : List Char) {rest : List Char} {e : Int} (hb : ∀ c ∈ base, isExponentMark c = false)
    (he : Exponent e rest) :
    readExponent (base ++ rest) = .ok e ∧ (base ++ rest).takeWhile (!isExponentMark ·) = base := by
  have hall : ∀ c ∈ base, (!isExponentMark c) = true := fun c hc => by rw [hb c hc]; rfl
  rw [readExponent, List.dropWhile_append_of_pos hall, List.takeWhile_append_of_pos hall]
  cases he with
  | mark hlt => exact ⟨Number.readBounded_intChars hlt, List.append_nil _⟩
  | plus n hlt h => exact ⟨by rw [h]; exact Number.readBounded_plus_digits hlt, List.append_nil _⟩
  | absent h0 => exact ⟨by rw [h0]; rfl, List.append_nil _⟩

theorem read_number (negative : Bool) {whole fraction behind rest : List Char} {e : Int} (hw : Digits whole)
    (hne : whole ≠ []) (hf : Digits fraction) (hb : Behind fraction behind) (he : Exponent e rest)
    (hfits : fitsInt64 (fraction.length - e) = true) :
    read ((if negative then ['-'] else []) ++ whole ++ behind ++ rest) =
      .ok ⟨if negative then -(digitsValue (whole ++ fraction) : Int) else digitsValue (whole ++ fraction),
        fraction.length - e⟩ := by
  have hfront : ∀ c ∈ (if negative then ['-'] else []) ++ whole, isExponentMark c = false ∧ c ≠ '.' := by
    intro c hc
    rcases List.mem_append.mp hc with hc | hc
    · cases negative with
      | true =>
        obtain rfl := List.mem_singleton.mp hc
        exact ⟨rfl, by decide⟩
      | false => cases hc
    · refine ⟨not_isExponentMark_of_isDigit (hw c hc), ?_⟩
      rintro rfl
      cases hw _ hc
  have hbehind : ∀ c ∈ behind, isExponentMark c = false := by
    intro c hc
    cases hb with
    | point =>
      rcases List.mem_cons.mp hc with rfl | hc
      · rfl
      · exact not_isExponentMark_of_isDigit (hf c hc)
    | whole _ => cases hc
  obtain ⟨hexp, hbase⟩ := readExponent_append ((if negative then ['-'] else []) ++ whole ++ behind)
    (fun c hc => (List.mem_append.mp hc).elim (fun h => (hfront c h).1) (hbehind c)) he
  have hnot : ∀ c ∈ (if negative then ['-'] else []) ++ whole, (c != '.') = true := fun c hc =>
    bne_iff_ne.mpr (hfront c hc).2
  have hempty : ((if negative then ['-'] else []) ++ whole ++ behind).isEmpty = false := by
    rw [List.isEmpty_eq_false_iff]
    simp [hne]
  have hwhole : ((if negative then ['-'] else []) ++ whole ++ behind).takeWhile (· != '.') =
      (if negative then ['-'] else []) ++ whole := by
    rw [List.takeWhile_append_of_pos hnot]
    cases hb <;> simp
  have hfraction : (((if negative then ['-'] else []) ++ whole ++ behind).dropWhile (· != '.')).drop 1 = fraction := by
    rw [List.dropWhile_append_of_pos hnot]
    cases hb with
    | point => simp
    | whole h => rw [h]; rfl
  have hkept : fraction.filter (· != '_') = fraction := by
    refine List.filter_eq_self.mpr fun c hc => ?_
    rw [bne_iff_ne]
    rintro rfl
    cases hf _ hc
  have hread := Number.readInteger_signed (hw.append hf) (by simp [hne]) negative
  rw [← List.append_assoc] at hread
  simp only [read, hexp, hbase, hempty, hwhole, hfraction, hkept, hfits, hread, Bool.false_eq_true, if_false, if_true]

/-! ## The plain form -/

theorem signed_natAbs (m : Int) : (if decide (m < 0) then -(m.natAbs : Int) else m.natAbs) = m := by
  split
  · rename_i h
    simp only [decide_eq_true_eq] at h
    omega
  · rename_i h
    simp only [decide_eq_true_eq] at h
    omega

theorem fitsInt64_iff {n : Int} : fitsInt64 n = true ↔ -(2 ^ 63) ≤ n ∧ n < 2 ^ 63 := by
  simp only [fitsInt64, Bool.and_eq_true, decide_eq_true_eq, Nat.pow_eq, Nat.cast_pow, Nat.cast_ofNat]

theorem fitsInt64_natCast {n : Nat} (h : n < 2 ^ 63) : fitsInt64 (n : Int) = true := by
  rw [fitsInt64_iff]
  omega

theorem settled_natAbs (d : Decimal) :
    d.settled.mantissa.natAbs = d.mantissa.natAbs * 10 ^ (if d.scale ≤ 0 then d.scale.natAbs else 0) := by
  unfold settled
  split
  · show (d.mantissa * 10 ^ d.scale.natAbs).natAbs = _
    rw [Int.natAbs_mul, Int.natAbs_pow]
    rfl
  · rw [pow_zero, Nat.mul_one]

theorem settled_isNegative (d : Decimal) : d.settled.isNegative = d.isNegative := by
  unfold settled
  split
  · have hpow : (0 : Int) < 10 ^ d.scale.natAbs := Int.pow_pos (by decide)
    simp only [isNegative, decide_eq_decide]
    exact ⟨fun h => neg_of_mul_neg_left h (Int.le_of_lt hpow), fun h => Int.mul_neg_of_neg_of_pos h hpow⟩
  · rfl

/-- The digits before the point and behind it write the number without its sign, with a point only where digits are
behind it and no zero in front but a single one. -/
theorem plainDigits_parts (d : Decimal) : ∃ whole fraction behind, Digits whole ∧ whole ≠ [] ∧ Digits fraction ∧
    Behind fraction behind ∧ plainDigits d.digits d.scale = whole ++ behind ∧
    (fraction.length : Int) = d.settled.scale ∧ digitsValue (whole ++ fraction) = d.settled.mantissa.natAbs ∧
    (fraction = [] → behind = []) ∧ (whole.head? = some '0' → whole = ['0']) := by
  have hvalue : digitsValue d.digits = d.mantissa.natAbs := Number.digitsValue_digits _
  have hdigits : Digits d.digits := Number.digits_digits _
  have hne : d.digits ≠ [] := Number.digits_ne_nil _
  have hhead : d.digits.head? = some '0' → d.digits = ['0'] := Number.digits_head?
  rw [settled_natAbs]
  unfold plainDigits settled
  by_cases hs : d.scale ≤ 0
  · simp only [if_pos hs]
    by_cases hzero : d.digits = ['0']
    · have hm : d.mantissa.natAbs = 0 := by
        rw [← hvalue, hzero]
        rfl
      exact ⟨d.digits, [], [], hdigits, hne, Number.digits_nil, .whole rfl, by simp [hzero], rfl,
        by rw [List.append_nil, hvalue, hm, Nat.zero_mul], fun _ => rfl, hhead⟩
    · refine ⟨d.digits ++ zeros d.scale.natAbs, [], [], hdigits.append (Number.digits_zeros _), by simp [hne],
        Number.digits_nil, .whole rfl, by simp [hzero], rfl, ?_, fun _ => rfl, ?_⟩
      · rw [List.append_nil, Number.digitsValue_append, hvalue, zeros, Number.digitsValue_zeros, List.length_replicate,
          Nat.add_zero]
      · intro h
        rw [List.head?_append_of_ne_nil _ hne] at h
        exact absurd (hhead h) hzero
  · simp only [if_neg hs, pow_zero, Nat.mul_one, pointed]
    by_cases hlt : d.scale.natAbs < d.digits.length
    · have hfront : (d.digits.take (d.digits.length - d.scale.natAbs)) ≠ [] := by
        intro h
        have hlen := congrArg List.length (List.take_append_drop (d.digits.length - d.scale.natAbs) d.digits)
        rw [List.take_eq_nil_iff] at h
        rcases h with h | h
        · omega
        · exact hne h
      refine ⟨d.digits.take (d.digits.length - d.scale.natAbs), d.digits.drop (d.digits.length - d.scale.natAbs), _,
        hdigits.of_subset (List.take_subset _ _), hfront, hdigits.of_subset (List.drop_subset _ _), .point,
        by rw [if_pos hlt], ?_, ?_, ?_, ?_⟩
      · rw [List.length_drop]
        omega
      · rw [List.take_append_drop, hvalue]
      · intro h
        rw [List.drop_eq_nil_iff] at h
        omega
      · intro h
        -- the digits begin as their front does
        have hsplit := List.take_append_drop (d.digits.length - d.scale.natAbs) d.digits
        have hsame : d.digits.head? = some '0' := by
          rw [← hsplit, List.head?_append_of_ne_nil _ hfront, h]
        have hlen : d.digits.length = 1 := by
          rw [hhead hsame]
          rfl
        omega
    · refine ⟨['0'], zeros (d.scale.natAbs - d.digits.length) ++ d.digits, _, Number.digits_zeros 1, by simp,
        (Number.digits_zeros _).append hdigits, .point, by rw [if_neg hlt]; rfl, ?_, ?_, ?_, fun _ => rfl⟩
      · rw [List.length_append, zeros, List.length_replicate]
        omega
      · rw [← List.append_assoc, zeros, List.append_assoc, show ['0'] = List.replicate 1 '0' from rfl,
          Number.digitsValue_zeros_append, Number.digitsValue_zeros_append, hvalue]
      · intro h
        exact absurd (List.append_eq_nil_iff.mp h).2 hne

/-- The zeros of a negative scale are written out, so they are written again where they are digits. -/
theorem plainChars_settled (d : Decimal) : d.settled.plainChars = d.plainChars := by
  have hsign : d.settled.sign = d.sign := by rw [sign, sign, settled_isNegative]
  by_cases hs : d.scale ≤ 0
  · have hdigits : d.settled.digits = plainDigits d.digits d.scale := by
      rw [digits, settled_natAbs, if_pos hs, plainDigits, if_pos hs, digits]
      by_cases hm : d.mantissa.natAbs = 0
      · rw [hm, Nat.zero_mul, if_pos (by decide)]
      · rw [Number.digits_mul_pow (Nat.pos_of_ne_zero hm), if_neg, zeros]
        intro hzero
        have hvalue := Number.digitsValue_digits d.mantissa.natAbs
        rw [hzero] at hvalue
        exact hm hvalue.symm
    have hscale : d.settled.scale = 0 := by rw [settled, if_pos hs]
    rw [plainChars, plainChars, hsign, hdigits, hscale]
    congr 1
    simp [plainDigits, zeros]
  · rw [settled, if_neg hs]

/-- The plain form reads back to the number. -/
theorem read_plainChars {d : Decimal} (hd : d.scale.natAbs < 2 ^ 63) : read d.plainChars = .ok d.settled := by
  obtain ⟨whole, fraction, behind, hw, hne, hf, hb, hparts, hscale, hvalue, -, -⟩ := plainDigits_parts d
  have hfits : fitsInt64 (fraction.length - 0) = true := by
    rw [Int.sub_zero]
    refine fitsInt64_natCast ?_
    unfold settled at hscale
    split at hscale
    · have h0 : (fraction.length : Int) = 0 := hscale
      omega
    · omega
  have hread := read_number d.isNegative hw hne hf hb (.absent rfl) hfits
  rw [List.append_nil, List.append_assoc, ← hparts, hvalue, hscale, Int.sub_zero, ← settled_isNegative,
    isNegative, signed_natAbs] at hread
  rw [plainChars, sign, ← settled_isNegative, isNegative]
  exact hread

/-! ## The form with an exponent -/

theorem leadingPoint_parts {ds : List Char} (hd : Digits ds) (hne : ds ≠ []) : ∃ whole fraction behind, Digits whole ∧
    whole ≠ [] ∧ Digits fraction ∧ Behind fraction behind ∧ leadingPoint ds = whole ++ behind ∧
    fraction.length + 1 = ds.length ∧ whole ++ fraction = ds := by
  match ds, hne with
  | [c], _ => exact ⟨[c], [], [], hd, by simp, Number.digits_nil, .whole rfl, rfl, rfl, rfl⟩
  | c :: c' :: rest, _ =>
    exact ⟨[c], c' :: rest, _, hd.of_subset (by simp), by simp, hd.of_subset (by simp), .point, rfl, rfl, rfl⟩

/-- Digits with a point behind the first of them, and an exponent that makes up for the point. -/
theorem read_leadingPoint (negative : Bool) (n : Nat) {scale : Int} (hs : fitsInt64 scale = true)
    (he : ((Number.digits n).length - 1 - scale).natAbs < 2 ^ 127) :
    read ((if negative then ['-'] else []) ++
        (leadingPoint (Number.digits n) ++ 'E' :: intChars ((Number.digits n).length - 1 - scale))) =
      .ok ⟨if negative then -(n : Int) else n, scale⟩ := by
  obtain ⟨whole, fraction, behind, hw, hne, hf, hb, hparts, hlen, hall⟩ :=
    leadingPoint_parts (Number.digits_digits n) (Number.digits_ne_nil n)
  have hback : (fraction.length : Int) - ((Number.digits n).length - 1 - scale) = scale := by omega
  have hfits : fitsInt64 ((fraction.length : Int) - ((Number.digits n).length - 1 - scale)) = true := by rwa [hback]
  have hread := read_number negative hw hne hf hb (.mark he) hfits
  rw [hall, Number.digitsValue_digits, hback, List.append_assoc, List.append_assoc, ← List.append_assoc whole,
    ← hparts] at hread
  exact hread

end DocWire.Decimal
