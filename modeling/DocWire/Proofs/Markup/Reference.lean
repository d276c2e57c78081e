/-
  DocWire.Proofs.Markup.Reference — a text reads back from its references.
-/

import DocWire.Markup.Reference
import DocWire.Proofs.Outcome

namespace DocWire.Markup

/-- The characters of a list are judged one by one; to decide a claim about them by itself may mean to try all
characters that there are. -/
theorem all_chars_iff {p : Char → Prop} [DecidablePred p] {cs : List Char} :
    cs.all (fun c => decide (p c)) = true ↔ ∀ c ∈ cs, p c := by
  simp only [List.all_eq_true, decide_eq_true_eq]

theorem all_chars {p : Char → Prop} [DecidablePred p] {cs : List Char} (h : cs.all (fun c => decide (p c)) = true) :
    ∀ c ∈ cs, p c :=
  all_chars_iff.mp h

theorem escapeChar_cases (c : Char) :
    (c = '<' ∧ escapeChar c = ['&', 'l', 't', ';']) ∨ (c = '>' ∧ escapeChar c = ['&', 'g', 't', ';']) ∨
    (c = '&' ∧ escapeChar c = ['&', 'a', 'm', 'p', ';']) ∨
    (c = '\x27' ∧ escapeChar c = ['&', 'a', 'p', 'o', 's', ';']) ∨
    (c = '\x22' ∧ escapeChar c = ['&', 'q', 'u', 'o', 't', ';']) ∨
    (c ∉ ['<', '>', '&', '\x27', '\x22'] ∧ escapeChar c = [c]) := by
  by_cases h1 : c = '<'
  · exact .inl ⟨h1, by rw [h1]; decide⟩
  by_cases h2 : c = '>'
  · exact .inr (.inl ⟨h2, by rw [h2]; decide⟩)
  by_cases h3 : c = '&'
  · exact .inr (.inr (.inl ⟨h3, by rw [h3]; decide⟩))
  by_cases h4 : c = '\x27'
  · exact .inr (.inr (.inr (.inl ⟨h4, by rw [h4]; decide⟩)))
  by_cases h5 : c = '\x22'
  · exact .inr (.inr (.inr (.inr (.inl ⟨h5, by rw [h5]; decide⟩))))
  refine .inr (.inr (.inr (.inr (.inr ⟨by simp [h1, h2, h3, h4, h5], ?_⟩))))
  have hnone : entities.find? (·.2 == c) = none := by
    simp only [entities, List.find?_eq_none, List.forall_mem_cons, beq_iff_eq]
    exact ⟨Ne.symm h1, Ne.symm h2, Ne.symm h3, Ne.symm h4, Ne.symm h5, fun x hx => by cases hx⟩
  rw [escapeChar, hnone]

/-- One written character is read as itself. -/
theorem unescapeFrom_escapeChar (c : Char) (s : List Char) :
    unescapeFrom none (escapeChar c ++ s) = (unescapeFrom none s).map (c :: ·) := by
  rcases escapeChar_cases c with ⟨rfl, h⟩ | ⟨rfl, h⟩ | ⟨rfl, h⟩ | ⟨rfl, h⟩ | ⟨rfl, h⟩ | ⟨hc, h⟩
  · rw [h]; rfl
  · rw [h]; rfl
  · rw [h]; rfl
  · rw [h]; rfl
  · rw [h]; rfl
  · have hne : c ≠ '&' := fun he => hc (by rw [he]; decide)
    rw [h, List.singleton_append, unescapeFrom]
    simp only [hne, if_false]

theorem unescape_escape (s : String) : unescape (escape s) = .ok s := by
  have hchars : ∀ cs : List Char, unescapeFrom none (cs.flatMap escapeChar) = .ok cs := by
    intro cs
    induction cs with
    | nil => rfl
    | cons c rest ih => rw [List.flatMap_cons, unescapeFrom_escapeChar, ih, Outcome.map_ok]
  rw [unescape, escape, String.toList_ofList, hchars, Outcome.map_ok, String.ofList_toList]

theorem escapeChar_apart (d : Char) : ∀ c ∈ escapeChar d, c ≠ '<' ∧ c ≠ '>' ∧ c ≠ '\x27' ∧ c ≠ '\x22' := by
  rcases escapeChar_cases d with ⟨-, he⟩ | ⟨-, he⟩ | ⟨-, he⟩ | ⟨-, he⟩ | ⟨-, he⟩ | ⟨hd, he⟩
  all_goals rw [he]
  · exact all_chars (by decide)
  · exact all_chars (by decide)
  · exact all_chars (by decide)
  · exact all_chars (by decide)
  · exact all_chars (by decide)
  · intro c hc
    obtain rfl := List.mem_singleton.mp hc
    simp only [List.mem_cons, List.not_mem_nil, or_false, not_or] at hd
    exact ⟨hd.1, hd.2.1, hd.2.2.2.1, hd.2.2.2.2⟩

/-- What is written never holds a character that ends a quoted value or a tag. -/
theorem mem_escape {s : String} {c : Char} (h : c ∈ (escape s).toList) :
    c ≠ '<' ∧ c ≠ '>' ∧ c ≠ '\x27' ∧ c ≠ '\x22' := by
  rw [escape, String.toList_ofList] at h
  obtain ⟨d, -, hc⟩ := List.mem_flatMap.mp h
  exact escapeChar_apart d c hc

/-- A character that is written as it is stands in what is written. -/
theorem mem_escape_of_mem {s : String} {c : Char} (h : c ∈ s.toList) (hc : escapeChar c = [c]) :
    c ∈ (escape s).toList := by
  rw [escape, String.toList_ofList]
  refine List.mem_flatMap.mpr ⟨c, h, ?_⟩
  rw [hc]
  exact List.mem_singleton_self c

/-- A text without the five named characters is written as it is. -/
theorem escape_eq_self {s : String} (h : ∀ c ∈ s.toList, c ∉ ['<', '>', '&', '\x27', '\x22']) : escape s = s := by
  have hchars : ∀ cs : List Char, (∀ c ∈ cs, c ∉ ['<', '>', '&', '\x27', '\x22']) → cs.flatMap escapeChar = cs := by
    intro cs hcs
    induction cs with
    | nil => rfl
    | cons c rest ih =>
      have hc := hcs c List.mem_cons_self
      rw [List.flatMap_cons, ih fun d hd => hcs d (List.mem_cons_of_mem _ hd)]
      rcases escapeChar_cases c with ⟨rfl, -⟩ | ⟨rfl, -⟩ | ⟨rfl, -⟩ | ⟨rfl, -⟩ | ⟨rfl, -⟩ | ⟨-, he⟩
      · exact absurd (by decide) hc
      · exact absurd (by decide) hc
      · exact absurd (by decide) hc
      · exact absurd (by decide) hc
      · exact absurd (by decide) hc
      · rw [he, List.singleton_append]
  rw [escape, hchars _ h, String.ofList_toList]

end DocWire.Markup
