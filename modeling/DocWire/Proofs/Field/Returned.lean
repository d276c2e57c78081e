/-
  DocWire.Proofs.Field.Returned — values that are written come back.

  What was written reads back, and never as unset: as the same value, but that a text is cut to the length of its field
  and a decimal may come back with another scale. It is the same number all the same (`Returned`). Floating-point fields
  are the exception, since their decimals are rounded. What is not written is refused for one of two causes: it is of
  another kind than the field takes, or it is beyond a limit of the field (`Exceeds`). A leap second is one of those:
  its nanoseconds are not zero.
-/

import DocWire.Proofs.Field.Limits

namespace DocWire.Coercion

/-- What a value comes back as: a text cut to the length of its field, a decimal as the same number, everything else as
it was. -/
def Returned (f : Format) : Value → Value → Prop
  | .text s, v => (f.length = 0 ∧ v = .text s) ∨ (0 < f.length ∧ v = .text (String.ofList (s.toList.take f.length)))
  | .decimal a, .decimal b => b.value = a.value
  | v, w => w = v

theorem Recovered.returned {f : Format} {v w : Value} (hf : f.type ≠ .float) (h : Recovered f v w) : Returned f v w := by
  cases v with
  | text s =>
    simp only [Recovered, cutText] at h
    by_cases hlength : f.length = 0
    · rw [if_pos hlength] at h
      exact .inl ⟨hlength, h⟩
    · rw [if_neg hlength] at h
      exact .inr ⟨Nat.pos_of_ne_zero hlength, h⟩
  | decimal a =>
    cases w with
    | decimal b =>
      simp only [Recovered, if_neg hf] at h
      exact (Decimal.sameValue_iff.mp h).symm
    | text _ | integer _ | date _ | time _ | bytes _ => cases h
  | integer _ | date _ | time _ | bytes _ => exact h.symm

/-- What is written comes back; what is of another kind or beyond a limit is refused, and nothing else is. -/
theorem values_returned (f : Format) (v : Value) :
    (f.type ≠ .float → ∀ w, encode f v = .ok w → ∃ v', decodeWire f w = .ok (some v') ∧ Returned f v v') ∧
    ((∃ w, encode f v = .ok w) ↔ v.kind = f.type.kind ∧ ¬ Exceeds f v) ∧
    (v.kind ≠ f.type.kind → encode f v = .error (.kindMismatch f.type f.type.kind v.kind)) ∧
    (v.kind = f.type.kind → Exceeds f v →
      ∃ fault, encode f v = .error (.outOfRange f.type (refusedText v) fault)) := by
  refine ⟨?_, ?_, encode_wrongKind, encode_exceeds⟩
  · intro hf w hw
    obtain ⟨v', hv', hrecovered⟩ := decodeWire_encode hw
    exact ⟨v', hv', hrecovered.returned hf⟩
  · constructor
    · intro h
      obtain ⟨w, hw⟩ := h
      exact (encode_ok_iff.mp hw).1
    · intro h
      exact ⟨wireText f v, encode_ok_iff.mpr ⟨h, rfl⟩⟩

/-- Minus five thousand, held with a negative scale, comes back; a text is no number, and a leap second no time of day
that six digits write. -/
theorem values_returned_thousands :
    (∃ v', decodeWire ⟨.packed, 6, 2⟩ "-5000" = .ok (some v') ∧ Returned ⟨.packed, 6, 2⟩ (.decimal ⟨-5, -3⟩) v') ∧
    encode ⟨.int4, 0, 0⟩ (.text "12") = .error (.kindMismatch .int4 .integer .text) ∧
    ∃ fault, encode ⟨.time, 0, 0⟩ (.time ⟨23, 59, 59, 1000000000, by decide⟩) =
      .error (.outOfRange .time "23:59:60" fault) := by
  have hwire : encode ⟨.packed, 6, 2⟩ (.decimal ⟨-5, -3⟩) = .ok "-5000" := by rfl
  obtain ⟨hback, -, -, -⟩ := values_returned ⟨.packed, 6, 2⟩ (.decimal ⟨-5, -3⟩)
  obtain ⟨-, -, hkind, -⟩ := values_returned ⟨.int4, 0, 0⟩ (.text "12")
  obtain ⟨-, -, -, hleap⟩ := values_returned ⟨.time, 0, 0⟩ (.time ⟨23, 59, 59, 1000000000, by decide⟩)
  refine ⟨hback (by decide) _ hwire, hkind (by decide), ?_⟩
  exact hleap rfl (show (1000000000 : Nat) ≠ 0 by decide)

end DocWire.Coercion
