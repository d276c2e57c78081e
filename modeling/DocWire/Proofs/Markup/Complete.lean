/-
  DocWire.Proofs.Markup.Complete — the attributes of a tag that is read to its end.

  The name of an attribute is written as it is, so what is written may be cut elsewhere when it is read. An equals sign
  within a name ends it, and no value follows (`attribute?_broken`). An attribute without a name has its equals sign
  taken for the first character of one; then whatever is read ends within the value of the attribute behind it, and so
  on, so the last value is never closed (`ends_inside`, `readAttributes_inside`). So where the attributes of a tag are
  read to its end, they are those that were written (`nameText_of_complete`).

  Two attributes without a name would be read as one, the first name holding the first value: there is at most one.
-/

import DocWire.Proofs.Markup.Tag
import Mathlib.Data.List.TakeWhile

namespace DocWire.Markup

open Text (isMarkupSpace)

/-- At most one attribute has no name. -/
def OneUnnamed (attrs : List (String × String)) : Prop := attrs.Pairwise fun a b => a.1 ≠ "" ∨ b.1 ≠ ""

theorem oneUnnamed_of_named {attrs : List (String × String)} (h : ∀ a ∈ attrs, a.1 ≠ "") : OneUnnamed attrs :=
  List.pairwise_of_forall_mem_list fun a ha _ _ => .inl (h a ha)

/-- Attributes that all have names may stand in front. -/
theorem OneUnnamed.behind {attrs front : List (String × String)} (h : OneUnnamed attrs) (hnamed : ∀ a ∈ front, a.1 ≠ "") :
    OneUnnamed (front ++ attrs) :=
  List.pairwise_append.mpr ⟨oneUnnamed_of_named hnamed, h, fun a ha _ _ => .inl (hnamed a ha)⟩

/-! ## Names that are cut -/

/-- No value follows an equals sign within a name. -/
theorem attribute?_broken {name : String} (h : Unbroken name) (hne : name.toList ≠ []) (hbroken : '=' ∈ name.toList.tail)
    (s : List Char) : attribute? (name.toList ++ '=' :: s) = none := by
  obtain ⟨c, rest, hname⟩ := List.exists_cons_of_ne_nil hne
  rw [Unbroken, hname] at h
  rw [hname, List.tail_cons] at hbroken
  obtain ⟨front, behind, rfl, hfirst⟩ := List.eq_append_cons_of_mem hbroken
  have hbare : ∀ x ∈ front ++ '=' :: behind, Bare x := fun x hx => h x (List.mem_cons_of_mem _ hx)
  have hfront : ∀ x ∈ front, Bare x ∧ x ≠ '=' := by
    intro x hx
    refine ⟨hbare x (List.mem_append_left _ hx), ?_⟩
    rintro rfl
    exact hfirst hx
  obtain ⟨d, more, hmore, hd⟩ : ∃ d more, behind ++ '=' :: s = d :: more ∧ Bare d := by
    cases behind with
    | nil => exact ⟨'=', s, rfl, by decide⟩
    | cons d more =>
      exact ⟨d, more ++ '=' :: s, rfl, hbare d (List.mem_append_right _ (List.mem_cons_of_mem _ List.mem_cons_self))⟩
  have hvalueless : quotedValue? (d :: more) = none := by
    have hquote : (d == '\x22' || d == '\x27') = false := by
      simp [hd.ne (d := '\x22') (by decide), hd.ne (d := '\x27') (by decide)]
    rw [quotedValue?, hquote, if_neg Bool.false_ne_true]
  rw [hname, List.cons_append, List.append_assoc, List.cons_append, hmore, attribute?_named hfront hd.1, hvalueless,
    Option.map_none]

/-! ## Attributes without a name -/

theorem quotedValue?_eq_some {s value behind : List Char} (h : quotedValue? s = some (value, behind)) :
    ∃ q, s = q :: (value ++ q :: behind) ∧ q ∈ ['\x22', '\x27'] ∧ q ∉ value := by
  unfold quotedValue? at h
  split at h
  · rename_i q body
    split at h
    · rename_i hq
      split at h
      · rename_i closing more hclosing
        simp only [Option.some.injEq, Prod.mk.injEq] at h
        obtain ⟨rfl, rfl⟩ := h
        have hlast : closing = q := by
          have := List.head?_dropWhile_not (· != q) body
          rw [hclosing] at this
          simpa using this
        refine ⟨q, ?_, by simpa using hq, ?_⟩
        · rw [← hlast, ← hclosing, hlast, List.takeWhile_append_dropWhile]
        · intro hm
          simpa using List.mem_takeWhile_imp hm
      · cases h
    · cases h
  · cases h

/-- What an attribute is read from, behind the first character of its name: the rest of the name, white space on either
side of the equals sign, and a quote. -/
structure Pieces (front gap gap' : List Char) (q : Char) : Prop where
  front : ∀ x ∈ front, isMarkupSpace x = false
  gap : ∀ x ∈ gap, isMarkupSpace x = true
  gap' : ∀ x ∈ gap', isMarkupSpace x = true
  quote : q ∈ ['\x22', '\x27']

theorem attribute?_eq_some {s behind : List Char} {attr : String × String} (h : attribute? s = some (attr, behind)) :
    ∃ c front gap gap' q value, s = c :: (front ++ gap ++ '=' :: (gap' ++ q :: (value ++ q :: behind))) ∧
      Pieces front gap gap' q ∧ q ∉ value := by
  unfold attribute? at h
  split at h
  · cases h
  rename_i c rest
  simp only at h
  split at h
  · rename_i afterEquals hafter
    obtain ⟨⟨value, more⟩, hvalue, hattr⟩ := Option.map_eq_some_iff.mp h
    obtain rfl : more = behind := (Prod.mk.inj hattr).2
    obtain ⟨q, hquoted, hq, hfree⟩ := quotedValue?_eq_some hvalue
    let inName (x : Char) : Bool := x != '=' && !isMarkupSpace x
    refine ⟨c, rest.takeWhile inName, (rest.dropWhile inName).takeWhile isMarkupSpace,
      afterEquals.takeWhile isMarkupSpace, q, value, ?_, ⟨?_, ?_, ?_, hq⟩, hfree⟩
    · rw [← hquoted, List.takeWhile_append_dropWhile, ← hafter, List.append_assoc, List.takeWhile_append_dropWhile,
        List.takeWhile_append_dropWhile]
    · intro x hx
      have := List.mem_takeWhile_imp hx
      simp only [inName, Bool.and_eq_true, Bool.not_eq_true'] at this
      exact this.2
    · exact fun x hx => List.mem_takeWhile_imp hx
    · exact fun x hx => List.mem_takeWhile_imp hx
  · cases h

/-- A text is cut at the first occurrence of a character in one way. -/
theorem cut_inj {a b c d : List Char} {x : Char} (ha : x ∉ a) (hc : x ∉ c) (h : a ++ x :: b = c ++ x :: d) :
    a = c ∧ b = d := by
  rcases List.append_eq_append_iff.mp h with ⟨more, rfl, he⟩ | ⟨more, rfl, he⟩
  · cases more with
    | nil => simpa using he
    | cons y more =>
      cases he
      exact absurd (List.mem_append_right a List.mem_cons_self) hc
  · cases more with
    | nil => simpa [eq_comm] using he
    | cons y more =>
      cases he
      exact absurd (List.mem_append_right c List.mem_cons_self) ha

variable {attrs : List (String × String)} {front gap gap' value behind : List Char} {q : Char}

/-- No name runs over the space in front of an attribute to the equals sign behind its name. -/
theorem attributes_apart (ha : ∀ a ∈ attrs, Unbroken a.1 ∧ a.1.toList ≠ []) (hp : Pieces front gap gap' q)
    (s : List Char) : attrs.flatMap attributeChars ≠ front ++ gap ++ '=' :: (gap' ++ q :: s) := by
  intro h
  cases attrs with
  | nil => simp at h
  | cons a rest =>
    obtain ⟨hbare, hne⟩ := ha a List.mem_cons_self
    obtain ⟨e, name, hname⟩ := List.exists_cons_of_ne_nil hne
    have he : Bare e := hbare e (by rw [hname]; exact List.mem_cons_self)
    rw [List.flatMap_cons, attributeChars, hname] at h
    -- the space ends the name, so it belongs to the gap, and the equals sign follows it
    obtain rfl : front = [] := by
      cases front with
      | nil => rfl
      | cons x front =>
        obtain ⟨rfl, -⟩ := List.cons.inj h
        exact absurd (hp.front ' ' List.mem_cons_self) (by decide)
    cases gap with
    | nil => cases h
    | cons x gap =>
      obtain ⟨-, h⟩ := List.cons.inj h
      cases gap with
      | cons y gap =>
        obtain ⟨rfl, -⟩ := List.cons.inj h
        exact absurd (hp.gap e (by simp)) (by simp [he.1])
      | nil =>
        -- what follows the equals sign is neither white space nor a quote
        obtain ⟨rfl, h⟩ := List.cons.inj h
        obtain ⟨d, more, hmore, hd⟩ : ∃ d more, name ++ '=' :: '\x22' :: ((escape a.2).toList ++ ['\x22']) ++
            rest.flatMap attributeChars = d :: more ∧ Bare d := by
          cases name with
          | nil => exact ⟨'=', _, rfl, by decide⟩
          | cons d name => exact ⟨d, _, rfl, hbare d (by rw [hname]; simp)⟩
        have hstart : d :: more = gap' ++ q :: s := hmore.symm.trans (by simpa using h)
        cases gap' with
        | nil =>
          obtain ⟨rfl, -⟩ := List.cons.inj hstart
          revert hd
          have hquote := hp.quote
          simp only [List.mem_cons, List.not_mem_nil, or_false] at hquote
          rcases hquote with rfl | rfl <;> decide
        | cons y gap' =>
          obtain ⟨rfl, -⟩ := List.cons.inj hstart
          exact absurd (hp.gap' d List.mem_cons_self) (by simp [hd.1])

theorem Pieces.drop (hp : Pieces front gap gap' q) (n k : Nat) : Pieces (front.drop n) (gap.drop k) gap' q :=
  ⟨fun x hx => hp.front x (List.mem_of_mem_drop hx), fun x hx => hp.gap x (List.mem_of_mem_drop hx), hp.gap', hp.quote⟩

/-- White space and a quote that stand in front of the end of a value: the quote is the one that closes it. -/
theorem closing_quote {cs s t : List Char} (hcs : ∀ x ∈ cs, x ∉ ['\x22', '\x27']) (hp : Pieces front gap gap' q)
    (h : gap' ++ q :: s = cs ++ '\x22' :: t) : q = '\x22' ∧ s = t := by
  rcases List.append_eq_append_iff.mp h with ⟨between, hcs', hcloses⟩ | ⟨between, hgap', hcloses⟩
  · cases between with
    | nil => exact List.cons.inj hcloses
    | cons z between =>
      obtain ⟨rfl, -⟩ := List.cons.inj hcloses
      exact absurd hp.quote (hcs q (by rw [hcs']; simp))
  · cases between with
    | nil => exact (List.cons.inj hcloses).imp Eq.symm Eq.symm
    | cons z between =>
      obtain ⟨rfl, -⟩ := List.cons.inj hcloses
      have hspace := hp.gap' '\x22' (by rw [hgap']; simp)
      exact absurd hspace (by decide)

/-- The first quote of attributes opens the value of the first of them. -/
theorem opening_quote (ha : ∀ a ∈ attrs, Unbroken a.1) (hvalue : '\x22' ∉ value)
    (h : attrs.flatMap attributeChars = value ++ '\x22' :: behind) :
    ∃ a rest, attrs = a :: rest ∧ behind = (escape a.2).toList ++ '\x22' :: rest.flatMap attributeChars := by
  cases attrs with
  | nil => simp at h
  | cons a rest =>
    have hquoteless : '\x22' ∉ ' ' :: (a.1.toList ++ ['=']) := by
      intro hm
      rcases List.mem_cons.mp hm with hm | hm
      · exact absurd hm (by decide)
      rcases List.mem_append.mp hm with hm | hm
      · exact ((ha a List.mem_cons_self).tagless _ hm).2.1 rfl
      · exact absurd hm (by decide)
    have hsplit : (a :: rest).flatMap attributeChars =
        ' ' :: (a.1.toList ++ ['=']) ++ '\x22' :: ((escape a.2).toList ++ '\x22' :: rest.flatMap attributeChars) := by
      simp [attributeChars]
    exact ⟨a, rest, rfl, (cut_inj hquoteless hvalue (hsplit.symm.trans h)).2.symm⟩

/-- An attribute that is read from within a value ends within the value of the next attribute. -/
theorem ends_inside {cs : List Char} (hcs : ∀ x ∈ cs, x ∉ ['\x22', '\x27'])
    (ha : ∀ a ∈ attrs, Unbroken a.1 ∧ a.1.toList ≠ []) (hp : Pieces front gap gap' q) (hvalue : q ∉ value)
    (h : cs ++ '\x22' :: attrs.flatMap attributeChars = front ++ gap ++ '=' :: (gap' ++ q :: (value ++ q :: behind))) :
    ∃ a rest, attrs = a :: rest ∧ behind = (escape a.2).toList ++ '\x22' :: rest.flatMap attributeChars := by
  rcases List.append_eq_append_iff.mp h with ⟨more, hlater, he⟩ | ⟨more, rfl, he⟩
  · -- the equals sign stands behind the value
    exfalso
    cases more with
    | nil => cases he
    | cons y more =>
      obtain ⟨rfl, hbehind⟩ := List.cons.inj he
      have hmore : more = front.drop (cs.length + 1) ++ gap.drop (cs.length + 1 - front.length) := by
        rw [← List.drop_append, hlater]
        simp
      rw [hmore] at hbehind
      exact attributes_apart ha (hp.drop _ _) _ hbehind
  · -- it stands within the value, so the next quote is the one that closes the value
    cases more with
    | nil => cases he
    | cons y more =>
      obtain ⟨rfl, hvalued⟩ := List.cons.inj he
      obtain ⟨rfl, hopens⟩ := closing_quote (fun x hx => hcs x (by simp [hx])) hp hvalued
      exact opening_quote (fun a hm => (ha a hm).1) hvalue hopens.symm

theorem escape_quoteless (s : String) : ∀ c ∈ (escape s).toList, c ∉ ['\x22', '\x27'] := by
  intro c hc
  obtain ⟨-, -, h1, h2⟩ := mem_escape hc
  simp [h1, h2]

/-- From within a value no attributes are read to their end: where one is read, it ends within the value of the next. -/
theorem readAttributes_inside {cs : List Char} (hcs : ∀ x ∈ cs, x ∉ ['\x22', '\x27'])
    (ha : ∀ a ∈ attrs, Unbroken a.1 ∧ a.1.toList ≠ []) {room : Nat} (hroom : attrs.length < room) :
    (readAttributes room (cs ++ '\x22' :: attrs.flatMap attributeChars)).2 = false := by
  induction room generalizing cs attrs with
  | zero => exact absurd hroom (Nat.not_lt_zero _)
  | succ room ih =>
    obtain ⟨c, s, hdrop, hs⟩ : ∃ c s, (cs ++ '\x22' :: attrs.flatMap attributeChars).dropWhile isMarkupSpace = c :: s ∧
        (s = attrs.flatMap attributeChars ∨
          ∃ cs', (∀ x ∈ cs', x ∉ ['\x22', '\x27']) ∧ s = cs' ++ '\x22' :: attrs.flatMap attributeChars) := by
      rw [List.dropWhile_append]
      split
      · exact ⟨'\x22', _, rfl, .inl rfl⟩
      · rename_i hne
        obtain ⟨c, cs', hrest⟩ := List.exists_cons_of_ne_nil (mt List.isEmpty_iff.mpr hne)
        refine ⟨c, cs' ++ '\x22' :: attrs.flatMap attributeChars, by rw [hrest]; rfl, .inr ⟨cs', ?_, rfl⟩⟩
        intro x hx
        have hmem : x ∈ cs.dropWhile isMarkupSpace := by
          rw [hrest]
          exact List.mem_cons_of_mem _ hx
        exact hcs x ((List.dropWhile_sublist _).subset hmem)
    rw [readAttributes, hdrop]
    simp only
    split
    · rfl
    · rename_i attr behind hattr
      obtain ⟨d, front, gap, gap', q, value, hread, hp, hvalue⟩ := attribute?_eq_some hattr
      obtain ⟨rfl, hnamed⟩ := List.cons.inj hread
      rcases hs with rfl | ⟨cs', hcs', rfl⟩
      · exact absurd hnamed (attributes_apart ha hp _)
      · obtain ⟨a, rest, rfl, rfl⟩ := ends_inside hcs' ha hp hvalue hnamed
        exact ih (escape_quoteless a.2) (fun b hb => ha b (List.mem_cons_of_mem _ hb)) (Nat.lt_of_succ_lt_succ hroom)

/-- Behind an attribute without a name no attributes are read to their end. -/
theorem readAttributes_unnamed (value : String) (ha : ∀ a ∈ attrs, Unbroken a.1 ∧ a.1.toList ≠ []) {room : Nat}
    (hroom : attrs.length < room) :
    (readAttributes (room + 1) (attributeChars ("", value) ++ attrs.flatMap attributeChars)).2 = false := by
  have hdrop : (attributeChars ("", value) ++ attrs.flatMap attributeChars).dropWhile isMarkupSpace =
      '=' :: '\x22' :: ((escape value).toList ++ '\x22' :: attrs.flatMap attributeChars) := by
    simp only [attributeChars, List.cons_append, List.dropWhile_cons]
    rw [if_pos (by decide)]
    simp [isMarkupSpace]
  rw [readAttributes, hdrop]
  simp only
  split
  · rfl
  · rename_i attr behind hattr
    obtain ⟨d, front, gap, gap', q, text, hread, hp, htext⟩ := attribute?_eq_some hattr
    obtain ⟨rfl, hnamed⟩ := List.cons.inj hread
    -- the equals sign is the first character of what is read as a name, and the quote its second one
    obtain ⟨front, rfl⟩ : ∃ rest, front = '\x22' :: rest := by
      cases front with
      | cons x front => exact ⟨front, by rw [(List.cons.inj hnamed).1]⟩
      | nil =>
        cases gap with
        | nil => cases hnamed
        | cons x gap =>
          have := hp.gap x List.mem_cons_self
          rw [← (List.cons.inj hnamed).1] at this
          cases this
    have hrest : Pieces front gap gap' q := ⟨fun x hx => hp.front x (List.mem_cons_of_mem _ hx), hp.gap, hp.gap', hp.quote⟩
    obtain ⟨a, rest, rfl, rfl⟩ := ends_inside (escape_quoteless value) ha hrest htext (List.cons.inj hnamed).2
    exact readAttributes_inside (escape_quoteless a.2) (fun b hb => ha b (List.mem_cons_of_mem _ hb))
      (Nat.lt_of_succ_lt hroom)

/-! ## All attributes of a tag -/

/-- Attributes that are read to their end have names that are read as they were written. -/
theorem nameText_of_readAttributes (ha : ∀ a ∈ attrs, Unbroken a.1) (hone : OneUnnamed attrs) {room : Nat}
    (hroom : attrs.length < room) (hcomplete : (readAttributes room (attrs.flatMap attributeChars)).2 = true) :
    ∀ a ∈ attrs, NameText a.1 := by
  induction attrs generalizing room with
  | nil =>
    intro a h
    cases h
  | cons a rest ih =>
    obtain ⟨room, rfl⟩ := Nat.exists_eq_succ_of_ne_zero (Nat.ne_of_gt (Nat.lt_of_le_of_lt (Nat.zero_le _) hroom))
    have hroomy : rest.length < room := Nat.lt_of_succ_lt_succ hroom
    have hrest : ∀ b ∈ rest, Unbroken b.1 := fun b hb => ha b (List.mem_cons_of_mem _ hb)
    obtain ⟨hfirst, hothers⟩ := List.pairwise_cons.mp hone
    obtain ⟨name, value⟩ := a
    by_cases hempty : name = ""
    · exfalso
      subst hempty
      have hnamed : ∀ b ∈ rest, Unbroken b.1 ∧ b.1.toList ≠ [] := fun b hb =>
        ⟨hrest b hb, fun he => (hfirst b hb).elim (fun h => h rfl) fun h => h (String.toList_eq_nil_iff.mp he)⟩
      rw [List.flatMap_cons, readAttributes_unnamed value hnamed hroomy] at hcomplete
      cases hcomplete
    · have hne : name.toList ≠ [] := fun he => hempty (String.toList_eq_nil_iff.mp he)
      have hname : Unbroken name := ha (name, value) List.mem_cons_self
      rw [List.flatMap_cons, readAttributes_cons hname hne] at hcomplete
      have hwhole : '=' ∉ name.toList.tail := by
        intro hbroken
        rw [attribute?_broken hname hne hbroken] at hcomplete
        cases hcomplete
      have htext : NameText name := ⟨hne, hwhole, hname⟩
      rw [attribute?_written (a := (name, value)) htext] at hcomplete
      exact List.forall_mem_cons.mpr ⟨htext, ih hrest hothers hroomy hcomplete⟩

theorem nameText_of_complete (ha : ∀ a ∈ attrs, Unbroken a.1) (hone : OneUnnamed attrs) {name : String}
    (hcomplete : (openingOf name attrs).complete = true) : ∀ a ∈ attrs, NameText a.1 :=
  nameText_of_readAttributes ha hone (Nat.lt_succ_of_le (length_attributes attrs)) hcomplete

end DocWire.Markup
