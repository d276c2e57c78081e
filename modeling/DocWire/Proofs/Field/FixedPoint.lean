/-
  DocWire.Proofs.Field.FixedPoint — quantities, amounts and packed numbers.

  These fields take a decimal by its number alone: whether it is written `12.5`, `12.500` or `125E-1`, it fits or it
  does not (`FitsFixed`), and a wire string is judged as the decimal that it reads as. What fits is written in the plain
  form of the decimal at hand, so the places are those of its scale, superfluous ones included, and the number is the
  same. None of the steps on the way leaves a machine word.
-/

import DocWire.Proofs.Field.Limits
import DocWire.Proofs.Number.Plain

namespace DocWire.Coercion

/-- The types with digits before and behind a point. -/
def IsFixedPoint (t : DataType) : Prop := t = .quantity ∨ t = .currency ∨ t = .packed

theorem IsFixedPoint.kind {t : DataType} (h : IsFixedPoint t) : t.kind = .decimal ∧ t ≠ .float := by
  rcases h with rfl | rfl | rfl <;> exact ⟨rfl, by decide⟩

variable {f : Format}

/-- A fixed-point field takes a decimal exactly where its number fits, writing or reading; what it writes is a plain text
of the same number with the places of the scale; and counting the digits and writing them out stays in machine words. -/
theorem fixedPoint_exact (hf : IsFixedPoint f.type) (d : Decimal) :
    ((∃ w, encode f (.decimal d) = .ok w) ↔ FitsFixed f d) ∧
    (∀ w, encode f (.decimal d) = .ok w → d.WritesPlain w) ∧
    (∀ text, Decimal.read (Text.trim text.toList) = .ok d →
      ∀ v, decode f text = .ok v ↔ v = .decimal d ∧ FitsFixed f d) ∧
    (d.scale.natAbs ≤ maxPlainScale → d.digits.length < 2 ^ 63 →
      d.digitCounts? = some (digitCounts d) ∧ d.plainChars? = some d.plainChars) := by
  obtain ⟨hkind, hfloat⟩ := hf.kind
  refine ⟨?_, ?_, ?_, ?_⟩
  · rw [exists_encode_decimal_iff hkind, fits_iff hfloat]
  · intro w hw
    obtain ⟨-, rfl⟩ := (encode_decimal_iff hkind).mp hw
    rw [wireText, if_neg hfloat]
    exact d.writesPlain
  · intro text hread v
    rw [decode_decimal_iff hkind hread, fits_iff hfloat]
  · intro hscale hlength
    exact ⟨Decimal.digitCounts?_eq hscale hlength, Decimal.plainChars?_eq hlength⟩

/-- An amount of 123.40 fits five digits with two places, written or read from a text with a sign and an underscore;
1234.5 does not. -/
theorem fixedPoint_exact_amount :
    encode ⟨.currency, 5, 2⟩ (.decimal ⟨12340, 2⟩) = .ok "123.40" ∧
    Decimal.WritesPlain ⟨12340, 2⟩ "123.40" ∧
    FitsFixed ⟨.currency, 5, 2⟩ ⟨12340, 2⟩ ∧ ¬ FitsFixed ⟨.currency, 5, 2⟩ ⟨12345, 1⟩ ∧
    decode ⟨.currency, 5, 2⟩ " +123.4_0" = .ok (.decimal ⟨12340, 2⟩) ∧
    Decimal.digitCounts? ⟨12340, 2⟩ = some (3, 1) ∧ Decimal.plainChars? ⟨12340, 2⟩ = some "123.40".toList := by
  have hcurrency : IsFixedPoint (Format.mk .currency 5 2).type := .inr (.inl rfl)
  have hwire : encode ⟨.currency, 5, 2⟩ (.decimal ⟨12340, 2⟩) = .ok "123.40" := by rfl
  have hread : Decimal.read (Text.trim " +123.4_0".toList) = .ok ⟨12340, 2⟩ := by decide +kernel
  obtain ⟨hfits, hplain, hdecode, hwords⟩ := fixedPoint_exact hcurrency ⟨12340, 2⟩
  obtain ⟨hunfit, -, -, -⟩ := fixedPoint_exact hcurrency ⟨12345, 1⟩
  have hfit := hfits.mp ⟨_, hwire⟩
  obtain ⟨hcounts, hchars⟩ := hwords (by decide) (by decide +kernel)
  refine ⟨hwire, hplain _ hwire, hfit, ?_, (hdecode _ hread _).mpr ⟨rfl, hfit⟩, hcounts, hchars⟩
  intro h
  obtain ⟨w, hw⟩ := hunfit.mpr h
  cases hw

end DocWire.Coercion
