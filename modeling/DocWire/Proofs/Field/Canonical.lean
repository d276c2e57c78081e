/-
  DocWire.Proofs.Field.Canonical — wire strings that are read and written again.

  What was read can be written, and `Canonical` says how the new text stands to the old one. A date and a time of day have
  one text, so theirs is the same (`WritesDay`, `WritesTime`); of bytes the letters become upper case, and a text is cut
  to the length of its field. Numbers lose all that their reader passes over: white space around them, a plus sign,
  underscores, zeros in front, an exponent. A whole number comes in the shortest text that it has, a decimal in plain
  digits with the places of the scale that it was read with. Floating-point fields round, and their texts are those of
  the rounded number.
-/

import DocWire.Proofs.Field.Acceptance
import DocWire.Proofs.Field.Limits
import DocWire.Proofs.Field.Readings
import DocWire.Proofs.Number.Plain

namespace DocWire.Coercion

open Number (WritesWhole IsShortest)

variable {f : Format}

/-- How the text `w` that a value is written as stands to the text `t` that it was read from. -/
def Canonical (f : Format) (t w : String) : Value → Prop
  | .text s => s = t ∧ ((f.length = 0 ∧ w = t) ∨ (0 < f.length ∧ w = String.ofList (t.toList.take f.length)))
  | .integer n => WritesWhole (Text.trim t.toList) n ∧ IsShortest w.toList n
  | .decimal d => Decimal.read (Text.trim t.toList) = .ok d ∧ (f.type ≠ .float → d.WritesPlain w)
  | .date d => w = t ∧ WritesDay t.toList d
  | .time x => w = t ∧ WritesTime t.toList x
  | .bytes _ => w.toList = t.toList.map Char.toUpper

/-- What a value reads from is written again in its canonical form. -/
theorem canonical_wireText {t : String} {v : Value} {kind : ValueKind} (h : readValue kind t = .ok v) :
    Canonical f t (wireText f v) v := by
  cases kind with
  | text =>
    cases h
    refine ⟨rfl, ?_⟩
    simp only [wireText, cutText]
    by_cases hlength : f.length = 0
    · exact .inl ⟨hlength, if_pos hlength⟩
    · exact .inr ⟨Nat.pos_of_ne_zero hlength, if_neg hlength⟩
  | integer =>
    obtain ⟨n, hn, rfl⟩ := Outcome.map_eq_ok.mp h
    refine ⟨Number.readInteger_eq_ok_iff.mp (Outcome.mapError_eq_ok.mp hn), ?_⟩
    rw [wireText, String.toList_ofList]
    exact Number.isShortest_intChars n
  | decimal =>
    obtain ⟨d, hd, rfl⟩ := Outcome.map_eq_ok.mp h
    refine ⟨Outcome.mapError_eq_ok.mp hd, ?_⟩
    intro hfloat
    rw [wireText, if_neg hfloat]
    exact d.writesPlain
  | date =>
    obtain ⟨d, hd, rfl⟩ := Outcome.map_eq_ok.mp h
    have hday := readDate_eq_ok_iff.mp hd
    refine ⟨?_, hday⟩
    rw [wireText, Date.compact, hday.compactChars, String.ofList_toList]
  | time =>
    obtain ⟨x, hx, rfl⟩ := Outcome.map_eq_ok.mp h
    have htime := readTime_eq_ok_iff.mp hx
    refine ⟨?_, htime⟩
    rw [wireText, Time.compact, htime.compactChars, String.ofList_toList]
  | bytes =>
    obtain ⟨b, hb, rfl⟩ := Outcome.map_eq_ok.mp h
    exact Hex.toList_encode_of_decode (Outcome.mapError_eq_ok.mp hb)

theorem decode_date_iff (hk : f.type.kind = .date) {t : String} {v : Value} :
    decode f t = .ok v ↔ ∃ d, v = .date d ∧ WritesDay t.toList d := by
  rw [decode_eq_ok_iff, hk]
  constructor
  · intro h
    obtain ⟨d, hd, rfl⟩ := Outcome.map_eq_ok.mp h.1
    exact ⟨d, rfl, readDate_eq_ok_iff.mp hd⟩
  · intro h
    obtain ⟨d, rfl, hd⟩ := h
    have hwithin := hd.year_within
    refine ⟨?_, ?_⟩
    · rw [readValue, readDate_eq_ok_iff.mpr hd]
      rfl
    · intro hexceeds
      simp only [Exceeds] at hexceeds
      omega

theorem decode_time_iff (hk : f.type.kind = .time) {t : String} {v : Value} :
    decode f t = .ok v ↔ ∃ x, v = .time x ∧ WritesTime t.toList x := by
  rw [decode_eq_ok_iff, hk]
  constructor
  · intro h
    obtain ⟨x, hx, rfl⟩ := Outcome.map_eq_ok.mp h.1
    exact ⟨x, rfl, readTime_eq_ok_iff.mp hx⟩
  · intro h
    obtain ⟨x, rfl, hx⟩ := h
    refine ⟨?_, ?_⟩
    · rw [readValue, readTime_eq_ok_iff.mpr hx]
      rfl
    · intro hexceeds
      obtain ⟨-, -, -, -, -, hnano⟩ := hx
      exact hexceeds hnano

/-- What is read is written again in its canonical form; a field of dates reads the eight digits of a day and nothing
else, a field of times of day six digits, and neither reads two texts as the same. -/
theorem decoded_canonical (f : Format) :
    (∀ t v, decode f t = .ok v → ∃ w, encode f v = .ok w ∧ Canonical f t w v) ∧
    (f.type.kind = .date → ∀ t v, decode f t = .ok v ↔ ∃ d, v = .date d ∧ WritesDay t.toList d) ∧
    (f.type.kind = .time → ∀ t v, decode f t = .ok v ↔ ∃ x, v = .time x ∧ WritesTime t.toList x) ∧
    (f.type.kind = .date ∨ f.type.kind = .time →
      ∀ t t' v, decode f t = .ok v → decode f t' = .ok v → t = t') := by
  refine ⟨?_, ?_, ?_, ?_⟩
  · intro t v h
    obtain ⟨hread, hwithin⟩ := decode_eq_ok_iff.mp h
    exact ⟨wireText f v, encode_ok_iff.mpr ⟨⟨readValue_kind hread, hwithin⟩, rfl⟩, canonical_wireText hread⟩
  · intro hk t v
    exact decode_date_iff hk
  · intro hk t v
    exact decode_time_iff hk
  · intro hk t t' v h h'
    apply String.toList_inj.mp
    rcases hk with hk | hk
    · obtain ⟨d, rfl, hd⟩ := (decode_date_iff hk).mp h
      obtain ⟨_, he, hd'⟩ := (decode_date_iff hk).mp h'
      cases he
      rw [← hd.compactChars, hd'.compactChars]
    · obtain ⟨x, rfl, hx⟩ := (decode_time_iff hk).mp h
      obtain ⟨_, he, hx'⟩ := (decode_time_iff hk).mp h'
      cases he
      rw [← hx.compactChars, hx'.compactChars]

/-- A whole number loses its padding, bytes come in upper case; the thirtieth of February is no day. -/
theorem decoded_canonical_padded :
    decode ⟨.int2, 0, 0⟩ "\t+0_12 " = .ok (.integer 12) ∧ encode ⟨.int2, 0, 0⟩ (.integer 12) = .ok "12" ∧
    IsShortest "12".toList 12 ∧
    (∃ w, encode ⟨.raw, 2, 0⟩ (.bytes [222, 173]) = .ok w ∧ w.toList = "DEAD".toList) ∧
    (∀ v, decode ⟨.date, 0, 0⟩ "20240230" ≠ .ok v) ∧
    (∀ t v, decode ⟨.time, 0, 0⟩ "235959" = .ok v → decode ⟨.time, 0, 0⟩ t = .ok v → t = "235959") := by
  have hpadded : decode ⟨.int2, 0, 0⟩ "\t+0_12 " = .ok (.integer 12) := by decide +kernel
  have hwritten : encode ⟨.int2, 0, 0⟩ (.integer 12) = .ok "12" := by decide +kernel
  have hraw : decode ⟨.raw, 2, 0⟩ "dEaD" = .ok (.bytes [222, 173]) := by decide +kernel
  obtain ⟨hint, -, -, -⟩ := decoded_canonical ⟨.int2, 0, 0⟩
  obtain ⟨hbytes, -, -, -⟩ := decoded_canonical ⟨.raw, 2, 0⟩
  obtain ⟨-, hday, -, -⟩ := decoded_canonical ⟨.date, 0, 0⟩
  obtain ⟨-, -, -, htime⟩ := decoded_canonical ⟨.time, 0, 0⟩
  refine ⟨hpadded, hwritten, ?_, ?_, ?_, ?_⟩
  · obtain ⟨w, hw, -, hshortest⟩ := hint _ _ hpadded
    rw [hwritten] at hw
    cases hw
    exact hshortest
  · obtain ⟨w, hw, hupper⟩ := hbytes _ _ hraw
    refine ⟨w, hw, ?_⟩
    rw [hupper]
    decide
  · intro v hv
    obtain ⟨d, -, -, -, hyear, hmonth, hnumber⟩ := (hday rfl _ _).mp hv
    have hisDay := d.isDay
    rw [hyear, hmonth, hnumber] at hisDay
    exact absurd hisDay (by decide +kernel)
  · intro t v h h'
    exact htime (.inr rfl) _ _ _ h' h

end DocWire.Coercion
