/-
  DocWire.Proofs.Number.Digits — decimal digits, written and read.

  Digits are only digits, there is at least one, and a factor of ten is a zero behind them. A reader of
  digits gives the number back, with or without zeros in front; the two readers of whole numbers give back
  what `intChars` writes.
-/

import DocWire.Number.Integer
import DocWire.Proofs.Outcome
import Mathlib.Tactic.Ring
import Mathlib.Tactic.Positivity

namespace DocWire.Number

variable {s t : List Char} {n k : Nat}

/-- A text of digits. -/
def Digits (s : List Char) : Prop := ∀ c ∈ s, isDigit c = true

theorem digits_digits (n : Nat) : Digits (digits n) := by
  intro c hc
  have h := Nat.isDigit_of_mem_toDigits (by decide) (Nat.le_refl 10) hc
  simp only [Char.isDigit, Bool.and_eq_true, decide_eq_true_eq, ge_iff_le] at h
  simp only [isDigit, Bool.and_eq_true, decide_eq_true_eq]
  exact h

theorem digits_ne_nil (n : Nat) : digits n ≠ [] := Nat.toDigits_ne_nil

theorem digits_nil : Digits [] := fun _ hc => by cases hc

theorem digits_zeros (k : Nat) : Digits (List.replicate k '0') := by
  intro c hc
  rw [(List.mem_replicate.mp hc).2]
  rfl

theorem Digits.append (hs : Digits s) (ht : Digits t) : Digits (s ++ t) := fun c hc =>
  (List.mem_append.mp hc).elim (hs c) (ht c)

theorem Digits.of_subset (hs : Digits s) (h : t ⊆ s) : Digits t := fun c hc => hs c (h hc)

theorem length_digits_le_iff (hk : 0 < k) : (digits n).length ≤ k ↔ n < 10 ^ k :=
  Nat.length_toDigits_le_iff (by decide) hk

/-- Ten times a number has its digits with a zero behind them. -/
theorem digits_mul_ten (hn : 0 < n) : digits (n * 10) = digits n ++ ['0'] := by
  have h := Nat.toDigits_append_toDigits (b := 10) (by decide) hn (d := 0) (by decide)
  rw [Nat.toDigits_zero, Nat.add_zero, Nat.mul_comm] at h
  exact h.symm

theorem digits_mul_pow (hn : 0 < n) (k : Nat) : digits (n * 10 ^ k) = digits n ++ List.replicate k '0' := by
  induction k with
  | zero => simp
  | succ k ih =>
    rw [pow_succ, ← mul_assoc, digits_mul_ten (Nat.mul_pos hn (by positivity)), ih, List.append_assoc,
      List.replicate_succ']

/-! ## Values -/

theorem digitsValue_append (s t : List Char) :
    digitsValue (s ++ t) = digitsValue s * 10 ^ t.length + digitsValue t := by
  simp only [digitsValue]
  rw [Nat.ofDigitChars_append, Nat.ofDigitChars_eq_ofDigitChars_zero, Nat.mul_comm]

theorem digitsValue_zeros (k : Nat) : digitsValue (List.replicate k '0') = 0 := by
  rw [digitsValue, Nat.ofDigitChars_replicate_zero, Nat.mul_zero]

/-- Zeros in front count for nothing. -/
theorem digitsValue_zeros_append (k : Nat) (s : List Char) :
    digitsValue (List.replicate k '0' ++ s) = digitsValue s := by
  rw [digitsValue_append, digitsValue_zeros, Nat.zero_mul, Nat.zero_add]

theorem digitsValue_digit {c : Char} (h : isDigit c = true) : digitsValue [c] < 10 := by
  simp only [isDigit, Bool.and_eq_true, decide_eq_true_eq] at h
  have hle : c.toNat ≤ '9'.toNat := h.2
  have hvalue : digitsValue [c] = c.toNat - '0'.toNat := by
    simp [digitsValue, Nat.ofDigitChars]
  have hzero : '0'.toNat = 48 := rfl
  have hnine : '9'.toNat = 57 := rfl
  omega

theorem digitsValue_lt (h : Digits s) : digitsValue s < 10 ^ s.length := by
  induction s using List.reverseRecOn with
  | nil => decide
  | append_singleton s c ih =>
    have hs := ih fun c hc => h c (List.mem_append_left _ hc)
    have hc := digitsValue_digit (h c (List.mem_append_right _ (List.mem_singleton_self c)))
    rw [digitsValue_append, List.length_append, List.length_singleton, pow_add, pow_one]
    omega

/-- No zero stands in front of the digits of a number, but the zero of zero itself. -/
theorem digits_head? (h : (digits n).head? = some '0') : digits n = ['0'] := by
  obtain ⟨rest, hrest⟩ := List.head?_eq_some_iff.mp h
  by_cases hnil : rest = []
  · rw [hrest, hnil]
  · exfalso
    have hdigits : Digits rest := (digits_digits n).of_subset (by simp [hrest])
    have hn : n = digitsValue rest := by
      have hvalue := digitsValue_zeros_append 1 rest
      rwa [List.replicate_one, List.singleton_append, ← hrest, digitsValue_digits] at hvalue
    have hlt := digitsValue_lt hdigits
    rw [← hn, ← length_digits_le_iff (List.length_pos_iff.mpr hnil), hrest, List.length_cons] at hlt
    omega

/-! ## Readers -/

theorem Digits.cons_ne {c : Char} (h : Digits (c :: s)) {d : Char} (hd : isDigit d = false) : c ≠ d := by
  rintro rfl
  rw [h c List.mem_cons_self] at hd
  cases hd

theorem readMagnitude_digits (h : Digits s) (hs : s ≠ []) : readMagnitude s = .ok (digitsValue s) := by
  have hkept : s.filter (· != '_') = s := by
    refine List.filter_eq_self.mpr fun c hc => ?_
    have := h c hc
    rw [bne_iff_ne]
    rintro rfl
    cases this
  unfold readMagnitude
  split
  · exact absurd rfl hs
  · exact absurd rfl (h.cons_ne rfl)
  · rw [hkept, if_pos (List.all_eq_true.mpr h)]

theorem dropPlus_digits (h : Digits s) : dropPlus s = s := by
  unfold dropPlus
  split
  · rfl
  · exact absurd rfl (h.cons_ne rfl)
  · rfl

/-- Digits behind a sign, or behind none. -/
theorem readInteger_signed (h : Digits s) (hs : s ≠ []) (negative : Bool) :
    readInteger ((if negative then ['-'] else []) ++ s) =
      .ok (if negative then -(digitsValue s : Int) else digitsValue s) := by
  cases negative with
  | true =>
    simp only [if_true, List.singleton_append]
    unfold readInteger
    split
    · rename_i rest he
      cases he
      exact absurd rfl (h.cons_ne rfl)
    · rename_i rest _ he
      cases he
      rw [dropPlus_digits h, readMagnitude_digits h hs]
      rfl
    · rename_i hne
      exact (hne s rfl).elim
  | false =>
    simp only [Bool.false_eq_true, if_false, List.nil_append]
    unfold readInteger
    split
    · exact absurd rfl (h.cons_ne rfl)
    · exact absurd rfl (h.cons_ne rfl)
    · rw [dropPlus_digits h, readMagnitude_digits h hs]
      rfl

theorem intChars_eq (i : Int) : intChars i = (if decide (i < 0) then ['-'] else []) ++ digits i.natAbs := by
  simp only [intChars, decide_eq_true_eq]

theorem readInteger_intChars (i : Int) : readInteger (intChars i) = .ok i := by
  rw [intChars_eq, readInteger_signed (digits_digits _) (digits_ne_nil _), digitsValue_digits]
  congr 1
  split
  · rename_i hi
    simp only [decide_eq_true_eq] at hi
    omega
  · rename_i hi
    simp only [decide_eq_true_eq] at hi
    omega

theorem readDigitsUpTo_digits {limit : Nat} {past : IntegerFault} (h : Digits s) {value : Nat}
    (hle : Nat.ofDigitChars 10 s value ≤ limit) :
    readDigitsUpTo limit past value s = .ok (Nat.ofDigitChars 10 s value) := by
  induction s generalizing value with
  | nil => rfl
  | cons c rest ih =>
    have hnext : Nat.ofDigitChars 10 (c :: rest) value = Nat.ofDigitChars 10 rest (value * 10 + (c.toNat - 48)) := by
      rw [Nat.ofDigitChars_cons, Nat.mul_comm]
      rfl
    rw [hnext] at hle ⊢
    have hgrows : value * 10 + (c.toNat - 48) ≤ Nat.ofDigitChars 10 rest (value * 10 + (c.toNat - 48)) := by
      rw [Nat.ofDigitChars_eq_ofDigitChars_zero]
      have := Nat.le_mul_of_pos_left (value * 10 + (c.toNat - 48)) (show 0 < 10 ^ rest.length by positivity)
      omega
    simp only [readDigitsUpTo, h c List.mem_cons_self, if_true]
    rw [if_pos (by omega)]
    exact ih (fun d hd => h d (List.mem_cons_of_mem _ hd)) hle

theorem readBounded_minus {bits : Nat} (hne : s ≠ []) :
    readBounded bits ('-' :: s) = (readDigitsUpTo (2 ^ (bits - 1)) .tooSmall 0 s).map fun n => -(n : Int) := by
  cases s with
  | nil => exact absurd rfl hne
  | cons c rest => rfl

theorem readBounded_plus {bits : Nat} (hne : s ≠ []) :
    readBounded bits ('+' :: s) = (readDigitsUpTo (2 ^ (bits - 1) - 1) .tooLarge 0 s).map fun n => (n : Int) := by
  cases s with
  | nil => exact absurd rfl hne
  | cons c rest => rfl

theorem readBounded_plain {bits : Nat} (h : Digits s) (hne : s ≠ []) :
    readBounded bits s = (readDigitsUpTo (2 ^ (bits - 1) - 1) .tooLarge 0 s).map fun n => (n : Int) := by
  unfold readBounded
  split
  · exact absurd rfl hne
  · exact absurd rfl (h.cons_ne rfl)
  · exact absurd rfl (h.cons_ne rfl)
  · exact absurd rfl (h.cons_ne rfl)
  · exact absurd rfl (h.cons_ne rfl)
  · rfl

theorem readBounded_intChars {bits : Nat} {i : Int} (hi : i.natAbs < 2 ^ (bits - 1)) :
    readBounded bits (intChars i) = .ok i := by
  have hvalue : Nat.ofDigitChars 10 (digits i.natAbs) 0 = i.natAbs := digitsValue_digits _
  have hd := digits_digits i.natAbs
  have hne := digits_ne_nil i.natAbs
  have hread : ∀ limit past, i.natAbs ≤ limit →
      readDigitsUpTo limit past 0 (digits i.natAbs) = .ok i.natAbs := fun limit past hle => by
    rw [readDigitsUpTo_digits hd (by omega), hvalue]
  rw [intChars]
  by_cases hneg : i < 0
  · rw [if_pos hneg, List.singleton_append, readBounded_minus hne, hread _ _ (Nat.le_of_lt hi)]
    show Except.ok (-(i.natAbs : Int)) = Except.ok i
    congr 1
    omega
  · rw [if_neg hneg, List.nil_append, readBounded_plain hd hne, hread _ _ (Nat.le_sub_one_of_lt hi)]
    show Except.ok (i.natAbs : Int) = Except.ok i
    congr 1
    omega

theorem readBounded_plus_digits {bits n : Nat} (hn : n < 2 ^ (bits - 1)) :
    readBounded bits ('+' :: digits n) = .ok n := by
  have hvalue : Nat.ofDigitChars 10 (digits n) 0 = n := digitsValue_digits n
  rw [readBounded_plus (digits_ne_nil n), readDigitsUpTo_digits (digits_digits n) (by omega), hvalue]
  rfl

end DocWire.Number
