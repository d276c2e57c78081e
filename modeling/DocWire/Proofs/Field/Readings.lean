/-
  DocWire.Proofs.Field.Readings — what a text looks like that was read.

  Of a date, a time of day or bytes, every text that reads is the one that is written, but for the case of hexadecimal
  digits: digits of a fixed number are told by their value (`eq_of_digitsValue_eq`), and a hexadecimal digit by its value
  and case (`toList_encode_of_decode`). A whole number has many texts, with signs, zeros and underscores; the written one
  is the shortest of them (`isShortest_intChars`), because each digit of it takes a character.
-/

import DocWire.Proofs.Field.Forms

namespace DocWire

open Number (Digits digitsValue isDigit intChars readInteger readMagnitude dropPlus)

namespace Number

variable {s t : List Char}

/-! ## Whole numbers -/

/-- A digit is told by its value. -/
theorem digit_eq_of_value {c d : Char} (hc : isDigit c = true) (hd : isDigit d = true)
    (h : digitsValue [c] = digitsValue [d]) : c = d := by
  have hrange : ∀ e : Char, isDigit e = true → 48 ≤ e.toNat ∧ digitsValue [e] = e.toNat - 48 := by
    intro e he
    simp only [isDigit, Bool.and_eq_true, decide_eq_true_eq] at he
    have hge : '0'.toNat ≤ e.toNat := he.1
    exact ⟨hge, by simp [digitsValue, Nat.ofDigitChars]⟩
  obtain ⟨hcl, hcv⟩ := hrange c hc
  obtain ⟨hdl, hdv⟩ := hrange d hd
  apply Char.toNat_inj.mp
  omega

/-- Digits of one number and one length are the same. -/
theorem eq_of_digitsValue_eq (hs : Digits s) (ht : Digits t) (hlen : s.length = t.length)
    (h : digitsValue s = digitsValue t) : s = t := by
  induction s generalizing t with
  | nil => exact (List.length_eq_zero_iff.mp hlen.symm).symm
  | cons c s ih =>
    cases t with
    | nil => cases hlen
    | cons d t =>
      have hs' : Digits s := hs.of_subset (List.subset_cons_self c s)
      have ht' : Digits t := ht.of_subset (List.subset_cons_self d t)
      have hlen' : s.length = t.length := Nat.succ.inj hlen
      have hlt := digitsValue_lt hs'
      have hlt' := digitsValue_lt ht'
      rw [← hlen'] at hlt'
      have hsplit : digitsValue (c :: s) = digitsValue [c] * 10 ^ s.length + digitsValue s := digitsValue_append [c] s
      have hsplit' : digitsValue (d :: t) = digitsValue [d] * 10 ^ s.length + digitsValue t := by
        rw [hlen']
        exact digitsValue_append [d] t
      rw [hsplit, hsplit'] at h
      have hhead : digitsValue [c] = digitsValue [d] := by
        have hquotient := congrArg (· / 10 ^ s.length) h
        have hpos : 0 < 10 ^ s.length := by positivity
        simpa [Nat.mul_comm _ (10 ^ s.length), Nat.mul_add_div hpos, Nat.div_eq_of_lt hlt, Nat.div_eq_of_lt hlt'] using
          hquotient
      have htail : digitsValue s = digitsValue t := by
        rw [hhead] at h
        exact Nat.add_left_cancel h
      rw [digit_eq_of_value (hs c List.mem_cons_self) (ht d List.mem_cons_self) hhead, ih hs' ht' hlen' htail]

/-- A digit, and digits and underscores behind it; the underscores do not count. -/
structure WritesMagnitude (s : List Char) (n : Nat) : Prop where
  head : ∃ c rest, s = c :: rest ∧ c ≠ '_'
  kept_digits : Digits (s.filter (· != '_'))
  kept_value : digitsValue (s.filter (· != '_')) = n

/-- What a whole number is written as: a sign or none, and a magnitude. -/
inductive WritesWhole : List Char → Int → Prop
  | plain {s : List Char} {n : Nat} : WritesMagnitude s n → WritesWhole s n
  | plus {s : List Char} {n : Nat} : WritesMagnitude s n → WritesWhole ('+' :: s) n
  | minus {s : List Char} {n : Nat} : WritesMagnitude s n → WritesWhole ('-' :: s) (-n)

theorem readMagnitude_eq_ok_iff {n : Nat} : readMagnitude s = .ok n ↔ WritesMagnitude s n := by
  unfold readMagnitude
  split
  · refine iff_of_false (by simp) ?_
    intro h
    obtain ⟨_, _, hs, -⟩ := h.head
    cases hs
  · refine iff_of_false (by simp) ?_
    intro h
    obtain ⟨_, _, hs, hc⟩ := h.head
    cases hs
    exact hc rfl
  · rename_i hnil hunder
    have hhead : ∃ c rest, s = c :: rest ∧ c ≠ '_' := by
      cases s with
      | nil => exact absurd rfl hnil
      | cons c rest => exact ⟨c, rest, rfl, fun hc => hunder rest (by rw [hc])⟩
    by_cases hall : (s.filter (· != '_')).all isDigit = true
    · simp only [if_pos hall, Except.ok.injEq]
      constructor
      · intro h
        exact ⟨hhead, List.all_eq_true.mp hall, h⟩
      · intro h
        exact h.kept_value
    · simp only [if_neg hall]
      refine iff_of_false (by simp) ?_
      intro h
      exact hall (List.all_eq_true.mpr h.kept_digits)

theorem WritesMagnitude.kept_ne_nil {n : Nat} (h : WritesMagnitude s n) : s.filter (· != '_') ≠ [] := by
  obtain ⟨c, rest, rfl, hc⟩ := h.head
  rw [List.filter_cons, if_pos (bne_iff_ne.mpr hc)]
  exact List.cons_ne_nil _ _

/-- A magnitude begins with a digit. -/
theorem WritesMagnitude.head_digit {n : Nat} {c : Char} (h : WritesMagnitude (c :: s) n) : isDigit c = true := by
  obtain ⟨_, _, hs, hc⟩ := h.head
  cases hs
  apply h.kept_digits
  rw [List.filter_cons, if_pos (bne_iff_ne.mpr hc)]
  exact List.mem_cons_self

/-- Of two signs in a row the second is no digit. -/
theorem not_writesMagnitude_plus {n : Nat} : ¬ WritesMagnitude ('+' :: s) n := by
  intro h
  cases h.head_digit

theorem not_writesMagnitude_minus {n : Nat} : ¬ WritesMagnitude ('-' :: s) n := by
  intro h
  cases h.head_digit

theorem readMagnitude_dropPlus_iff {n : Nat} : readMagnitude (dropPlus s) = .ok n ↔
    WritesMagnitude s n ∨ ∃ rest, s = '+' :: rest ∧ WritesMagnitude rest n := by
  rw [readMagnitude_eq_ok_iff]
  unfold dropPlus
  split
  · refine iff_of_false not_writesMagnitude_plus ?_
    intro h
    rcases h with h | ⟨_, hs, h⟩
    · exact not_writesMagnitude_plus h
    · cases hs
      exact not_writesMagnitude_plus h
  · constructor
    · intro h
      exact .inr ⟨_, rfl, h⟩
    · intro h
      rcases h with h | ⟨_, hs, h⟩
      · exact absurd h not_writesMagnitude_plus
      · cases hs
        exact h
  · rename_i hplus
    constructor
    · intro h
      exact .inl h
    · intro h
      rcases h with h | ⟨rest, hs, -⟩
      · exact h
      · exact absurd hs (hplus rest)

/-- What reads as a whole number are the texts of it. -/
theorem readInteger_eq_ok_iff {n : Int} : readInteger s = .ok n ↔ WritesWhole s n := by
  have hcast : ∀ (x : Except IntegerFault Nat) (g : Int → Int),
      ((x.bind fun m => .ok (m : Int)).map g = .ok n) ↔ ∃ m : Nat, x = .ok m ∧ g m = n := by
    intro x g
    cases x with
    | error fault => simp [Except.bind, Except.map]
    | ok m => simp [Except.bind, Except.map]
  unfold readInteger
  split
  · refine iff_of_false (by simp) ?_
    intro h
    cases h with
    | plain h => exact not_writesMagnitude_minus h
    | minus h => exact not_writesMagnitude_plus h
  · rename_i rest hrest
    refine (hcast _ _).trans ?_
    constructor
    · intro h
      obtain ⟨m, hm, rfl⟩ := h
      rcases readMagnitude_dropPlus_iff.mp hm with hplain | ⟨_, hs, -⟩
      · exact .minus hplain
      · exact absurd hs (hrest _)
    · intro h
      cases h with
      | plain h => exact absurd h not_writesMagnitude_minus
      | minus h => exact ⟨_, readMagnitude_dropPlus_iff.mpr (.inl h), rfl⟩
  · rename_i hminus
    refine (hcast _ _).trans ?_
    constructor
    · intro h
      obtain ⟨m, hm, rfl⟩ := h
      rcases readMagnitude_dropPlus_iff.mp hm with hplain | ⟨_, rfl, hplus⟩
      · exact .plain hplain
      · exact .plus hplus
    · intro h
      cases h with
      | plain h => exact ⟨_, readMagnitude_dropPlus_iff.mpr (.inl h), rfl⟩
      | plus h => exact ⟨_, readMagnitude_dropPlus_iff.mpr (.inr ⟨_, rfl, h⟩), rfl⟩
      | minus h => exact absurd rfl (hminus _)

/-- The text of a magnitude is its digits, or longer. -/
theorem WritesMagnitude.eq_digits_or_longer {n : Nat} (h : WritesMagnitude s n) :
    s = digits n ∨ (digits n).length < s.length := by
  have hkept := List.length_pos_iff.mpr h.kept_ne_nil
  have hlt := digitsValue_lt h.kept_digits
  rw [h.kept_value] at hlt
  have hfewest := (length_digits_le_iff hkept).mpr hlt
  have hfilter := List.length_filter_le (· != '_') s
  by_cases hlonger : (digits n).length < s.length
  · exact .inr hlonger
  · have hall : s.filter (· != '_') = s := List.filter_sublist.eq_of_length (by omega)
    have hdigits := h.kept_digits
    have hvalue := h.kept_value
    rw [hall] at hdigits hvalue
    refine .inl (eq_of_digitsValue_eq hdigits (digits_digits n) (by omega) ?_)
    rw [hvalue, digitsValue_digits]

/-- A text of a whole number is the written one, or longer. -/
theorem WritesWhole.eq_intChars_or_longer {n : Int} (h : WritesWhole s n) :
    s = intChars n ∨ (intChars n).length < s.length := by
  cases h with
  | @plain s m hm =>
    rw [intChars, if_neg (by omega), Int.natAbs_natCast, List.nil_append]
    exact hm.eq_digits_or_longer
  | @plus s m hm =>
    rw [intChars, if_neg (by omega), Int.natAbs_natCast, List.nil_append, List.length_cons]
    rcases hm.eq_digits_or_longer with hs | hs
    · rw [hs]
      exact .inr (Nat.lt_succ_self _)
    · exact .inr (Nat.lt_succ_of_lt hs)
  | @minus s m hm =>
    by_cases hzero : m = 0
    · -- a sign before a zero is superfluous
      subst hzero
      obtain ⟨c, rest, rfl, -⟩ := hm.head
      refine .inr ?_
      show 1 < rest.length + 1 + 1
      omega
    · rw [intChars, if_pos (by omega), Int.natAbs_neg, Int.natAbs_natCast, List.singleton_append]
      rcases hm.eq_digits_or_longer with hs | hs
      · exact .inl (congrArg _ hs)
      · exact .inr (Nat.succ_lt_succ hs)

/-- The text of a whole number that no other text of it is as short as. -/
structure IsShortest (w : List Char) (n : Int) : Prop where
  /-- A minus sign where the number is below zero, and digits. -/
  form : ∃ front, Digits front ∧ digitsValue front = n.natAbs ∧ w = if n < 0 then '-' :: front else front
  writes : WritesWhole w n
  least : ∀ s, WritesWhole s n → s = w ∨ w.length < s.length

theorem isShortest_intChars (n : Int) : IsShortest (intChars n) n := by
  refine ⟨⟨digits n.natAbs, digits_digits _, digitsValue_digits _, ?_⟩, ?_, ?_⟩
  · rw [intChars]
    by_cases hn : n < 0
    · rw [if_pos hn, if_pos hn, List.singleton_append]
    · rw [if_neg hn, if_neg hn, List.nil_append]
  · exact readInteger_eq_ok_iff.mp (readInteger_intChars n)
  · intro s h
    exact h.eq_intChars_or_longer

end Number

/-! ## Dates and times -/

namespace Coercion

open Calendar (padded padded_spec)

theorem padded_digitsValue {s : List Char} {width : Nat} (hw : 0 < width) (hs : Digits s) (hlen : s.length = width) :
    padded width (digitsValue s) = s := by
  have hlt := Number.digitsValue_lt hs
  rw [hlen] at hlt
  obtain ⟨hlength, hdigits, hvalue⟩ := padded_spec hw hlt
  exact Number.eq_of_digitsValue_eq hdigits hs (hlength.trans hlen.symm) hvalue

/-- Digits at a place write the number that they are read as. -/
theorem padded_digitsAt {s : List Char} {start count : Nat} (hc : 0 < count) (hs : Digits s)
    (hlen : start + count ≤ s.length) : padded count (digitsAt s start count) = (s.drop start).take count := by
  apply padded_digitsValue hc
  · exact (hs.of_subset (List.drop_subset _ _)).of_subset (List.take_subset _ _)
  · rw [List.length_take, List.length_drop]
    omega

/-- Eight digits that write a day. -/
def WritesDay (s : List Char) (d : Date) : Prop :=
  s.length = 8 ∧ Digits s ∧ d.year = digitsAt s 0 4 ∧ d.month = digitsAt s 4 2 ∧ d.day = digitsAt s 6 2

/-- Six digits that write a time of day. -/
def WritesTime (s : List Char) (t : Time) : Prop :=
  s.length = 6 ∧ Digits s ∧ t.hour = digitsAt s 0 2 ∧ t.minute = digitsAt s 2 2 ∧ t.second = digitsAt s 4 2 ∧ t.nano = 0

theorem readDate_eq_ok_iff {s : List Char} {d : Date} : readDate s = .ok d ↔ WritesDay s d := by
  unfold readDate WritesDay
  by_cases hs : s.length = 8 ∧ s.all isDigit = true
  · rw [if_pos hs]
    have hdigits : Digits s := List.all_eq_true.mp hs.2
    unfold Date.ofYmd?
    by_cases hday : Calendar.IsDay (digitsAt s 0 4) (digitsAt s 4 2) (digitsAt s 6 2)
    · rw [dif_pos hday]
      constructor
      · intro h
        cases h
        exact ⟨hs.1, hdigits, rfl, rfl, rfl⟩
      · intro h
        obtain ⟨-, -, hy, hm, hd⟩ := h
        cases d
        simp only at hy hm hd
        subst hy hm hd
        rfl
    · rw [dif_neg hday]
      refine iff_of_false (by simp) ?_
      intro h
      obtain ⟨-, -, hy, hm, hd⟩ := h
      apply hday
      rw [← hy, ← hm, ← hd]
      exact d.isDay
  · rw [if_neg hs]
    refine iff_of_false (by simp) ?_
    intro h
    exact hs ⟨h.1, List.all_eq_true.mpr h.2.1⟩

theorem readTime_eq_ok_iff {s : List Char} {t : Time} : readTime s = .ok t ↔ WritesTime s t := by
  unfold readTime WritesTime
  by_cases hs : s.length = 6 ∧ s.all isDigit = true
  · rw [if_pos hs]
    have hdigits : Digits s := List.all_eq_true.mp hs.2
    unfold Time.ofHms? Time.ofHmsNano?
    by_cases htime : Calendar.IsTimeOfDay (digitsAt s 0 2) (digitsAt s 2 2) (digitsAt s 4 2) 0
    · rw [dif_pos htime]
      constructor
      · intro h
        cases h
        exact ⟨hs.1, hdigits, rfl, rfl, rfl, rfl⟩
      · intro h
        obtain ⟨-, -, hh, hm, hsec, hn⟩ := h
        cases t
        simp only at hh hm hsec hn
        subst hh hm hsec hn
        rfl
    · rw [dif_neg htime]
      refine iff_of_false (by simp) ?_
      intro h
      obtain ⟨-, -, hh, hm, hsec, hn⟩ := h
      apply htime
      rw [← hh, ← hm, ← hsec, ← hn]
      exact t.isTimeOfDay
  · rw [if_neg hs]
    refine iff_of_false (by simp) ?_
    intro h
    exact hs ⟨h.1, List.all_eq_true.mpr h.2.1⟩

/-- The year of a day in eight digits is one that a field takes. -/
theorem WritesDay.year_within {s : List Char} {d : Date} (h : WritesDay s d) : 0 ≤ d.year ∧ d.year ≤ 9999 := by
  obtain ⟨hlen, hdigits, hy, -, -⟩ := h
  have hlt := Number.digitsValue_lt (hdigits.of_subset (List.take_subset 4 s))
  rw [List.length_take, hlen] at hlt
  have hyear : digitsAt s 0 4 < 10 ^ 4 := hlt
  omega

/-- A text is its three parts. -/
theorem parts_eq {s : List Char} {a b c : Nat} (hlen : s.length = a + b + c) :
    (s.drop 0).take a ++ (s.drop a).take b ++ (s.drop (a + b)).take c = s := by
  have hlast : (s.drop (a + b)).take c = (s.drop a).drop b := by
    rw [List.drop_drop]
    apply List.take_of_length_le
    rw [List.length_drop]
    omega
  rw [hlast, List.append_assoc, List.take_append_drop, List.drop_zero, List.take_append_drop]

/-- A day is written in one way. -/
theorem WritesDay.compactChars {s : List Char} {d : Date} (h : WritesDay s d) : d.compactChars = s := by
  have hwithin := h.year_within
  obtain ⟨hlen, hdigits, hy, hm, hd⟩ := h
  have hyear : d.year.natAbs = digitsAt s 0 4 := by rw [hy, Int.natAbs_natCast]
  rw [Date.compactChars, Date.yearChars, if_pos hwithin, hyear, hm, hd,
    padded_digitsAt (by decide) hdigits (by omega), padded_digitsAt (by decide) hdigits (by omega),
    padded_digitsAt (by decide) hdigits (by omega)]
  exact parts_eq hlen

/-- A time of day is written in one way. -/
theorem WritesTime.compactChars {s : List Char} {t : Time} (h : WritesTime s t) : t.compactChars = s := by
  obtain ⟨hlen, hdigits, hh, hm, hsec, hn⟩ := h
  have hshown : t.shownSecond = digitsAt s 4 2 := by
    rw [Time.shownSecond, hn, Nat.zero_div, Nat.add_zero, hsec]
  rw [Time.compactChars, hshown, hh, hm, padded_digitsAt (by decide) hdigits (by omega),
    padded_digitsAt (by decide) hdigits (by omega), padded_digitsAt (by decide) hdigits (by omega)]
  exact parts_eq hlen

end Coercion

/-! ## Bytes -/

namespace Hex

theorem exists_utf8 (c : Char) : ∃ first more, String.utf8EncodeChar c = first :: more := by
  apply List.exists_cons_of_length_pos
  rw [String.length_utf8EncodeChar]
  exact c.utf8Size_pos

/-- A character whose UTF-8 form begins with an ASCII byte has no other byte. -/
theorem utf8_of_ascii {c : Char} {code : UInt8} {rest : List UInt8} (h : String.utf8EncodeChar c = code :: rest)
    (hcode : code.toNat < 128) : code.toNat = c.toNat ∧ rest = [] := by
  have hval : c.val.toNat = c.toNat := rfl
  simp only [String.utf8EncodeChar, hval] at h
  by_cases hascii : c.toNat ≤ 127
  · rw [if_pos hascii] at h
    obtain ⟨rfl, rfl⟩ := List.cons.inj h
    refine ⟨?_, rfl⟩
    rw [UInt8.toNat_ofNat']
    omega
  rw [if_neg hascii] at h
  -- the lead byte of two, of three and of four
  split at h
  · obtain ⟨rfl, -⟩ := List.cons.inj h
    rw [UInt8.toNat_ofNat'] at hcode
    omega
  · split at h
    · obtain ⟨rfl, -⟩ := List.cons.inj h
      rw [UInt8.toNat_ofNat'] at hcode
      omega
    · obtain ⟨rfl, -⟩ := List.cons.inj h
      rw [UInt8.toNat_ofNat'] at hcode
      omega

theorem digitValue?_lt {code v : Nat} (h : digitValue? code = some v) : code < 128 := by
  unfold digitValue? at h
  repeat' split at h
  · omega
  · omega
  · omega
  · cases h

theorem digit_digitValue? : ∀ n < 128, ∀ v ∈ digitValue? n, v < 16 ∧ digit v = (Char.ofNat n).toUpper := by
  decide

/-- A byte that is a hexadecimal digit is a character of the text: the digit of its value, but for its case. -/
theorem digit_of_utf8 {s : List Char} {code : UInt8} {rest : List UInt8} {v : Nat}
    (h : s.flatMap String.utf8EncodeChar = code :: rest) (hv : digitValue? code.toNat = some v) :
    ∃ c t, s = c :: t ∧ rest = t.flatMap String.utf8EncodeChar ∧ v < 16 ∧ digit v = c.toUpper := by
  cases s with
  | nil => cases h
  | cons c t =>
    obtain ⟨first, more, hc⟩ := exists_utf8 c
    rw [List.flatMap_cons, hc, List.cons_append] at h
    obtain ⟨rfl, hrest⟩ := List.cons.inj h
    obtain ⟨hcode, rfl⟩ := utf8_of_ascii hc (digitValue?_lt hv)
    have hdigit := digit_digitValue? first.toNat (digitValue?_lt hv) v hv
    rw [hcode, Char.ofNat_toNat] at hdigit
    exact ⟨c, t, rfl, hrest.symm, hdigit⟩

theorem decodePairs_cons_ok {high : UInt8} {rest bytes : List UInt8} {position : Nat}
    (h : decodePairs position (high :: rest) = .ok bytes) :
    ∃ low tail x y more, rest = low :: tail ∧ digitValue? high.toNat = some x ∧ digitValue? low.toNat = some y ∧
      decodePairs (position + 2) tail = .ok more ∧ bytes = UInt8.ofNat (x * 16 + y) :: more := by
  cases rest with
  | nil => cases h
  | cons low tail =>
    rw [decodePairs] at h
    split at h
    · cases h
    rename_i x hx
    split at h
    · cases h
    rename_i y hy
    obtain ⟨more, hmore, hbytes⟩ := Outcome.map_eq_ok.mp h
    exact ⟨low, tail, x, y, more, rfl, hx, hy, hmore, hbytes.symm⟩

/-- Bytes that were read are written in the same digits, in upper case. -/
theorem encodeChars_of_decodePairs {bytes : List UInt8} {s : List Char} {position : Nat}
    (h : decodePairs position (s.flatMap String.utf8EncodeChar) = .ok bytes) :
    encodeChars bytes = s.map Char.toUpper := by
  induction bytes generalizing s position with
  | nil =>
    cases s with
    | nil => rfl
    | cons c t =>
      obtain ⟨first, more, hc⟩ := exists_utf8 c
      rw [List.flatMap_cons, hc, List.cons_append] at h
      obtain ⟨_, _, _, _, _, -, -, -, -, hcons⟩ := decodePairs_cons_ok h
      cases hcons
  | cons b more ih =>
    cases hbytes : s.flatMap String.utf8EncodeChar with
    | nil =>
      rw [hbytes] at h
      cases h
    | cons high rest =>
      rw [hbytes] at h
      obtain ⟨low, tail, x, y, _, rfl, hx, hy, hmore, hcons⟩ := decodePairs_cons_ok h
      obtain ⟨rfl, rfl⟩ := List.cons.inj hcons
      obtain ⟨c, t, rfl, ht, hx16, hc⟩ := digit_of_utf8 hbytes hx
      obtain ⟨d, u, rfl, hu, hy16, hd⟩ := digit_of_utf8 ht.symm hy
      rw [hu] at hmore
      have hbyte : (UInt8.ofNat (x * 16 + y)).toNat = x * 16 + y := by
        rw [UInt8.toNat_ofNat']
        omega
      have hhigh : (x * 16 + y) / 16 = x := by omega
      have hlow : (x * 16 + y) % 16 = y := by omega
      rw [encodeChars, hbyte, hhigh, hlow, hc, hd, ih hmore]
      rfl

/-- Bytes have one text that they are read from, but for the case of its letters. -/
theorem toList_encode_of_decode {text : String} {bytes : List UInt8} (h : decode text = .ok bytes) :
    (encode bytes).toList = text.toList.map Char.toUpper := by
  have hutf8 : text.toUTF8.toList = text.toList.flatMap String.utf8EncodeChar := by
    rw [← toList_toUTF8, String.ofList_toList]
  unfold decode at h
  rw [hutf8] at h
  simp only at h
  split at h
  · cases h
  · rw [encode, String.toList_ofList]
    exact encodeChars_of_decodePairs h

end Hex

end DocWire
