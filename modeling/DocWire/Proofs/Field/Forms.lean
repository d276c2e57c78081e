/-
  DocWire.Proofs.Field.Forms — dates, times and bytes, written and read.

  All three are written in digits of fixed number, so the reader finds the parts by their places.
-/

import DocWire.Field.Coercion
import DocWire.Proofs.Number.Digits

namespace DocWire

open Number (Digits digitsValue isDigit)

namespace Text

/-- A text without white space has none to cut off. -/
theorem trim_eq_self {s : List Char} (h : ∀ c ∈ s, isBlank c = false) : trim s = s := by
  have hdrop : ∀ t : List Char, (∀ c ∈ t, isBlank c = false) → t.dropWhile isBlank = t := by
    intro t ht
    cases t with
    | nil => rfl
    | cons c rest => rw [List.dropWhile_cons, ht c List.mem_cons_self, if_neg Bool.false_ne_true]
  rw [trim, trimBoth, hdrop s h, hdrop s.reverse fun c hc => h c (List.mem_reverse.mp hc), List.reverse_reverse]

theorem isBlank_of_isDigit {c : Char} (h : isDigit c = true) : isBlank c = false := by
  simp only [isDigit, Bool.and_eq_true, decide_eq_true_eq, Char.le_def, UInt32.le_iff_toNat_le] at h
  have hall : ∀ n < 58, 48 ≤ n → inRanges blankRanges n = false := by decide
  exact hall c.toNat (Nat.lt_succ_of_le h.2) h.1

end Text

/-! ## Dates and times -/

namespace Calendar

theorem padded_spec {width n : Nat} (hw : 0 < width) (hn : n < 10 ^ width) :
    (padded width n).length = width ∧ Digits (padded width n) ∧ digitsValue (padded width n) = n := by
  have hle := (Number.length_digits_le_iff hw).mpr hn
  refine ⟨?_, (Number.digits_zeros _).append (Number.digits_digits n), ?_⟩
  · rw [padded, List.length_append, List.length_replicate]
    omega
  · rw [padded, Number.digitsValue_zeros_append, Number.digitsValue_digits]

end Calendar

namespace Coercion

open Calendar (padded padded_spec)

theorem digitsAt_append (before part behind : List Char) :
    digitsAt (before ++ part ++ behind) before.length part.length = digitsValue part := by
  rw [digitsAt, List.append_assoc, List.drop_left, List.take_left]

/-- Three runs of digits, found by their lengths. -/
theorem digitsAt_parts {a b c : List Char} {la lb lc : Nat} (ha : a.length = la) (hb : b.length = lb)
    (hc : c.length = lc) : digitsAt (a ++ b ++ c) 0 la = digitsValue a ∧
      digitsAt (a ++ b ++ c) la lb = digitsValue b ∧ digitsAt (a ++ b ++ c) (la + lb) lc = digitsValue c := by
  subst ha hb hc
  refine ⟨?_, digitsAt_append a b c, ?_⟩
  · have h := digitsAt_append [] a (b ++ c)
    rwa [List.nil_append, ← List.append_assoc] at h
  · have h := digitsAt_append (a ++ b) c []
    rwa [List.append_nil, List.length_append] at h

theorem daysInMonth_le (year : Int) (month : Nat) : Calendar.daysInMonth year month ≤ 31 := by
  unfold Calendar.daysInMonth
  split
  · split <;> decide
  · split <;> decide

theorem readDate_compactChars {d : Date} (h : 0 ≤ d.year ∧ d.year ≤ 9999) : readDate d.compactChars = .ok d := by
  have hday := d.isDay
  have hmax := daysInMonth_le d.year d.month
  simp only [Calendar.IsDay] at hday
  obtain ⟨hyl, hyd, hyv⟩ := padded_spec (show 0 < 4 by decide) (show d.year.natAbs < 10 ^ 4 by omega)
  obtain ⟨hml, hmd, hmv⟩ := padded_spec (show 0 < 2 by decide) (show d.month < 10 ^ 2 by omega)
  obtain ⟨hdl, hdd, hdv⟩ := padded_spec (show 0 < 2 by decide) (show d.day < 10 ^ 2 by omega)
  obtain ⟨hy, hm, hd⟩ := digitsAt_parts hyl hml hdl
  have hlen : (padded 4 d.year.natAbs ++ padded 2 d.month ++ padded 2 d.day).length = 8 := by
    simp only [List.length_append, hyl, hml, hdl]
  have hall : (padded 4 d.year.natAbs ++ padded 2 d.month ++ padded 2 d.day).all isDigit = true :=
    List.all_eq_true.mpr ((hyd.append hmd).append hdd)
  have hyear : (d.year.natAbs : Int) = d.year := Int.natAbs_of_nonneg h.1
  have hdate : Date.ofYmd? (d.year.natAbs : Int) d.month d.day = some d := by
    rw [hyear, Date.ofYmd?, dif_pos d.isDay]
  rw [Date.compactChars, Date.yearChars, if_pos h, readDate, if_pos ⟨hlen, hall⟩, hy, hm, hd, hyv, hmv, hdv, hdate]

theorem readTime_compactChars {t : Time} (h : t.nano = 0) : readTime t.compactChars = .ok t := by
  have htime := t.isTimeOfDay
  simp only [Calendar.IsTimeOfDay] at htime
  have hshown : t.shownSecond = t.second := by
    rw [Time.shownSecond, h, Nat.zero_div, Nat.add_zero]
  obtain ⟨hhl, hhd, hhv⟩ := padded_spec (show 0 < 2 by decide) (show t.hour < 10 ^ 2 by omega)
  obtain ⟨hml, hmd, hmv⟩ := padded_spec (show 0 < 2 by decide) (show t.minute < 10 ^ 2 by omega)
  obtain ⟨hsl, hsd, hsv⟩ := padded_spec (show 0 < 2 by decide) (show t.second < 10 ^ 2 by omega)
  obtain ⟨hh, hm, hs⟩ := digitsAt_parts hhl hml hsl
  have hlen : (padded 2 t.hour ++ padded 2 t.minute ++ padded 2 t.second).length = 6 := by
    simp only [List.length_append, hhl, hml, hsl]
  have hall : (padded 2 t.hour ++ padded 2 t.minute ++ padded 2 t.second).all isDigit = true :=
    List.all_eq_true.mpr ((hhd.append hmd).append hsd)
  have hof : Time.ofHms? t.hour t.minute t.second = some t := by
    have hz : Calendar.IsTimeOfDay t.hour t.minute t.second 0 := h ▸ t.isTimeOfDay
    rw [Time.ofHms?, Time.ofHmsNano?, dif_pos hz]
    cases t
    cases h
    rfl
  rw [Time.compactChars, hshown, readTime, if_pos ⟨hlen, hall⟩, hh, hm, hs, hhv, hmv, hsv, hof]

end Coercion

/-! ## Bytes -/

namespace Hex

theorem toList_loop (bytes : ByteArray) (i : Nat) (done : List UInt8) :
    ByteArray.toList.loop bytes i done = done.reverse ++ bytes.data.toList.drop i := by
  fun_induction ByteArray.toList.loop bytes i done with
  | case1 i done h ih =>
    have hi : i < bytes.data.toList.length := h
    have hget : bytes.get! i = bytes.data.toList[i] := getElem!_pos bytes.data i h
    rw [ih, List.reverse_cons, List.append_assoc, List.drop_eq_getElem_cons hi, hget]
    rfl
  | case2 i done h =>
    rw [List.drop_eq_nil_of_le (Nat.not_lt.mp h), List.append_nil]

/-- The bytes of a text are those of its characters. -/
theorem toList_toUTF8 (s : List Char) : (String.ofList s).toUTF8.toList = s.flatMap String.utf8EncodeChar := by
  rw [ByteArray.toList, toList_loop, String.toUTF8_eq_toByteArray, String.toByteArray_ofList, List.utf8Encode,
    List.toList_data_toByteArray]
  rfl

theorem digit_spec : ∀ n < 16, String.utf8EncodeChar (digit n) = [UInt8.ofNat (digit n).toNat] ∧
    digitValue? (UInt8.ofNat (digit n).toNat).toNat = some n := by
  decide

theorem decodePairs_encodeChars (bytes : List UInt8) (position : Nat) :
    decodePairs position ((encodeChars bytes).flatMap String.utf8EncodeChar) = .ok bytes := by
  induction bytes generalizing position with
  | nil => rfl
  | cons b rest ih =>
    have hlt : b.toNat < 256 := b.toNat_lt
    obtain ⟨hhigh, hh⟩ := digit_spec (b.toNat / 16) (by omega)
    obtain ⟨hlow, hl⟩ := digit_spec (b.toNat % 16) (by omega)
    have hb : UInt8.ofNat (b.toNat / 16 * 16 + b.toNat % 16) = b := by
      rw [Nat.div_add_mod', UInt8.ofNat_toNat]
    simp only [encodeChars, List.flatMap_cons, hhigh, hlow, List.cons_append, List.nil_append, decodePairs, hh, hl,
      ih, Outcome.map_ok, hb]

theorem decode_encode (bytes : List UInt8) : decode (encode bytes) = .ok bytes := by
  have heven : ∀ bs : List UInt8, ((encodeChars bs).flatMap String.utf8EncodeChar).length % 2 = 0 := by
    intro bs
    induction bs with
    | nil => rfl
    | cons b rest ih =>
      have hlt : b.toNat < 256 := b.toNat_lt
      rw [encodeChars, List.flatMap_cons, List.flatMap_cons, (digit_spec (b.toNat / 16) (by omega)).1,
        (digit_spec (b.toNat % 16) (by omega)).1]
      simp only [List.cons_append, List.nil_append, List.length_cons]
      omega
  have hne := heven bytes
  rw [decode, encode, toList_toUTF8, if_neg (by omega), decodePairs_encodeChars]

end Hex

end DocWire
