/-
  DocWire.Proofs.Name — names in their markup form.

  A slash is written as `_-`, and `_-` is read as a slash. A name that holds `_-` itself is not read back, and every
  other name is (`unescape_escape_iff`), whatever stands around its slashes; two names that are read back and have one
  markup form are one name. What is read from a text without a slash has that text as its markup form.
-/

import DocWire.Name
import Mathlib.Data.List.Infix

namespace DocWire.Name

/-- A name without `_-`. -/
def Markless (name : String) : Prop := ¬ ['_', '-'] <:+: name.toList

instance (name : String) : Decidable (Markless name) := inferInstanceAs (Decidable (¬ ['_', '-'] <:+: name.toList))

theorem escapeChars_cons (c : Char) (s : List Char) :
    escapeChars (c :: s) = (if c = '/' then ['_', '-'] else [c]) ++ escapeChars s := rfl

/-- Only an underscore with a hyphen behind it is read as another character. -/
theorem unescapeChars_cons {c : Char} {s : List Char} (h : c = '_' → s.head? ≠ some '-') :
    unescapeChars (c :: s) = c :: unescapeChars s := by
  rw [unescapeChars]
  rintro t rfl rfl
  exact h rfl rfl

theorem head?_escapeChars {s : List Char} : (escapeChars s).head? = some '-' ↔ s.head? = some '-' := by
  cases s with
  | nil => rfl
  | cons c rest =>
    rw [escapeChars_cons]
    by_cases hc : c = '/'
    · rw [if_pos hc, hc]
      simp
    · rw [if_neg hc]
      rfl

/-- A slash that is written as `_-` neither makes nor breaks another `_-`, so the markup form is read as the name would
be. -/
theorem unescapeChars_escapeChars (s : List Char) : unescapeChars (escapeChars s) = unescapeChars s := by
  fun_induction unescapeChars s with
  | case1 rest ih =>
    show unescapeChars ('_' :: '-' :: escapeChars rest) = _
    rw [unescapeChars, ih]
  | case2 c rest hmark ih =>
    by_cases hc : c = '/'
    · rw [escapeChars_cons, if_pos hc, hc]
      show unescapeChars ('_' :: '-' :: escapeChars rest) = _
      rw [unescapeChars, ih]
    · rw [escapeChars_cons, if_neg hc, List.singleton_append, unescapeChars_cons, ih]
      intro hu
      rw [Ne, head?_escapeChars]
      intro hhead
      obtain ⟨t, rfl⟩ := List.head?_eq_some_iff.mp hhead
      exact hmark t hu rfl
  | case3 => rfl

theorem length_unescapeChars_le (s : List Char) : (unescapeChars s).length ≤ s.length := by
  fun_induction unescapeChars s with
  | case1 rest ih => simp only [List.length_cons]; omega
  | case2 c rest _ ih => simp only [List.length_cons]; omega
  | case3 => exact Nat.le_refl 0

/-- A text is read as itself exactly where it does not hold `_-`: where it does, something shorter is read. -/
theorem unescapeChars_eq_self {s : List Char} : unescapeChars s = s ↔ ¬ ['_', '-'] <:+: s := by
  fun_induction unescapeChars s with
  | case1 rest ih =>
    have hlength := length_unescapeChars_le rest
    refine iff_of_false ?_ (not_not_intro (List.prefix_append ['_', '-'] rest).isInfix)
    intro he
    have := congrArg List.length he
    simp only [List.length_cons] at this
    omega
  | case2 c rest hmark ih =>
    have hfirst : ¬ ['_', '-'] <+: c :: rest := by
      rintro ⟨t, ht⟩
      cases ht
      exact hmark t rfl rfl
    rw [List.cons.injEq, ih, List.infix_cons_iff, not_or]
    simp [hfirst]
  | case3 => simp

theorem escapeChars_unescapeChars {s : List Char} (h : '/' ∉ s) : escapeChars (unescapeChars s) = s := by
  fun_induction unescapeChars s with
  | case1 rest ih =>
    simp only [List.mem_cons, not_or] at h
    rw [escapeChars_cons, if_pos rfl, ih h.2.2]
    rfl
  | case2 c rest _ ih =>
    simp only [List.mem_cons, not_or] at h
    rw [escapeChars_cons, if_neg (Ne.symm h.1), ih h.2]
    rfl
  | case3 => rfl

theorem unescape_escape_iff {name : String} : unescape (escape name) = name ↔ Markless name := by
  rw [unescape, escape, String.toList_ofList, unescapeChars_escapeChars, Markless, ← unescapeChars_eq_self,
    ← String.toList_inj, String.toList_ofList]

theorem escape_unescape {name : String} (h : '/' ∉ name.toList) : escape (unescape name) = name := by
  rw [escape, unescape, String.toList_ofList, escapeChars_unescapeChars h, String.ofList_toList]

theorem unescape_escape {name : String} (h : Markless name) : unescape (escape name) = name := unescape_escape_iff.mpr h

/-- A markup form without an underscore is that of itself alone. -/
theorem eq_of_escape {name plain : String} (hplain : '_' ∉ plain.toList) (h : escape name = plain) : name = plain := by
  have hchars : ∀ s : List Char, '_' ∉ escapeChars s → escapeChars s = s := by
    intro s
    induction s with
    | nil =>
      intro _
      rfl
    | cons c rest ih =>
      intro hs
      rw [escapeChars_cons] at hs ⊢
      rw [List.mem_append, not_or] at hs
      split at hs
      · exact absurd List.mem_cons_self hs.1
      · rename_i hc
        rw [if_neg hc, ih hs.2]
        rfl
  rw [← h, escape, String.toList_ofList] at hplain
  rw [← h, escape, hchars _ hplain, String.ofList_toList]

theorem slash_not_mem_escape (name : String) : '/' ∉ (escape name).toList := by
  rw [escape, String.toList_ofList, escapeChars, List.mem_flatMap]
  rintro ⟨c, -, hc⟩
  split at hc
  · revert hc
    decide
  · rename_i hne
    exact hne (List.mem_singleton.mp hc).symm

theorem colon_mem_escape {name : String} : ':' ∈ (escape name).toList ↔ ':' ∈ name.toList := by
  rw [escape, String.toList_ofList, escapeChars, List.mem_flatMap]
  constructor
  · rintro ⟨c, hc, hm⟩
    split at hm
    · exact absurd hm (by decide)
    · rwa [List.mem_singleton.mp hm]
  · intro h
    exact ⟨':', h, by decide⟩

theorem escape_ne_empty {name : String} (h : name ≠ "") : escape name ≠ "" := by
  intro he
  have hnil := congrArg String.toList he
  rw [escape, String.toList_ofList] at hnil
  cases hname : name.toList with
  | nil => exact h (by rw [← String.ofList_toList (s := name), hname])
  | cons c rest =>
    rw [hname, escapeChars_cons] at hnil
    split at hnil <;> cases hnil

theorem escape_inj {a b : String} (ha : Markless a) (hb : Markless b) (h : escape a = escape b) : a = b := by
  rw [← unescape_escape ha, h, unescape_escape hb]

end DocWire.Name
