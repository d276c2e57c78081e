/-
  DocWire.Proofs.Field.Acceptance — what a field accepts.

  A value is written where it is of the kind that the field's type takes and within the field's limits (`encode_eq_ok`),
  and a text is read where it reads as such a value (`decode_eq_ok`): both sides keep the same limits, though a date or a
  time of day is only checked where it is written (`checkRead_eq_ok`). So what was read from a wire string has one again
  (`exists_encode`).
-/

import DocWire.Document.Acceptance
import DocWire.Proofs.Field.Readings
import DocWire.Proofs.Outcome

namespace DocWire

namespace Coercion

variable {f : Format} {text w : String} {v : Value}

theorem checkRange_eq_ok {u : Unit} : checkRange f v = .ok u ↔ rangeFault? f v = none := by
  rw [checkRange]
  cases rangeFault? f v with
  | none => exact iff_of_true rfl rfl
  | some fault => exact iff_of_false (by simp) (by simp)

/-- A value is written where it is of the field's kind and within the limits. -/
theorem encode_eq_ok : encode f v = .ok w ↔ v.kind = f.type.kind ∧ rangeFault? f v = none ∧ w = wireText f v := by
  rw [encode]
  by_cases hk : v.kind = f.type.kind
  · rw [if_pos hk, Outcome.map_eq_ok]
    constructor
    · intro h
      obtain ⟨_, hchecked, hw⟩ := h
      exact ⟨hk, checkRange_eq_ok.mp hchecked, hw.symm⟩
    · intro h
      exact ⟨(), checkRange_eq_ok.mpr h.2.1, h.2.2.symm⟩
  · rw [if_neg hk]
    exact iff_of_false (by simp) (fun h => hk h.1)

/-- What is not checked where it was read is within its limits. -/
theorem checkRead_eq_ok {kind : ValueKind} {u : Unit} (hread : readValue kind text = .ok v) :
    checkRead f v = .ok u ↔ rangeFault? f v = none := by
  cases kind with
  | date =>
    obtain ⟨d, hd, rfl⟩ := Outcome.map_eq_ok.mp hread
    have hyear := (readDate_eq_ok_iff.mp hd).year_within
    exact iff_of_true rfl (if_pos hyear)
  | time =>
    obtain ⟨t, ht, rfl⟩ := Outcome.map_eq_ok.mp hread
    obtain ⟨-, -, -, -, -, hnano⟩ := readTime_eq_ok_iff.mp ht
    exact iff_of_true rfl (if_pos hnano)
  | text =>
    cases hread
    simp only [checkRead, checkRange_eq_ok]
  | integer | decimal | bytes =>
    obtain ⟨x, -, rfl⟩ := Outcome.map_eq_ok.mp hread
    simp only [checkRead, checkRange_eq_ok]

/-- A text is read where it reads as a value within the limits. -/
theorem decode_eq_ok : decode f text = .ok v ↔ readValue f.type.kind text = .ok v ∧ rangeFault? f v = none := by
  rw [decode]
  cases hread : readValue f.type.kind text with
  | error fault => exact iff_of_false (by simp) (by simp)
  | ok u =>
    simp only [Outcome.map_eq_ok, Except.ok.injEq]
    constructor
    · intro h
      obtain ⟨_, hchecked, rfl⟩ := h
      exact ⟨rfl, (checkRead_eq_ok hread).mp hchecked⟩
    · intro h
      obtain ⟨rfl, hrange⟩ := h
      exact ⟨(), (checkRead_eq_ok hread).mpr hrange, rfl⟩

theorem decode_of_decodeWire (h : decodeWire f text = .ok (some v)) : decode f text = .ok v := by
  unfold decodeWire at h
  split at h
  · cases h
  · obtain ⟨u, hu, he⟩ := Outcome.map_eq_ok.mp h
    cases he
    exact hu

theorem readValue_kind {kind : ValueKind} (h : readValue kind text = .ok v) : v.kind = kind := by
  cases kind with
  | text =>
    cases h
    rfl
  | integer | decimal | date | time | bytes =>
    obtain ⟨x, -, hx⟩ := Outcome.map_eq_ok.mp h
    rw [← hx]
    rfl

theorem decodeWire_kind (h : decodeWire f text = .ok (some v)) : v.kind = f.type.kind :=
  readValue_kind (decode_eq_ok.mp (decode_of_decodeWire h)).1

/-- A value that was read from a wire string has a wire string. -/
theorem exists_encode (h : decodeWire f text = .ok (some v)) : ∃ wire, encode f v = .ok wire := by
  obtain ⟨hread, hrange⟩ := decode_eq_ok.mp (decode_of_decodeWire h)
  exact ⟨wireText f v, encode_eq_ok.mpr ⟨readValue_kind hread, hrange, rfl⟩⟩

end Coercion

namespace FieldDecl

variable {decl : FieldDecl} {v : Value}

theorem accept_kind {w : Value} (h : decl.accept w = .ok (some v)) : v.kind = decl.type.kind := by
  unfold accept at h
  split at h
  · rename_i hk
    cases h
    exact hk
  · cases h

theorem acceptWire_kind {text : String} (h : decl.acceptWire text = .ok (some v)) : v.kind = decl.type.kind :=
  Coercion.decodeWire_kind (Outcome.mapError_eq_ok.mp h)

end FieldDecl

end DocWire
