/-
  DocWire.Proofs.Markup.Tag — the tags of a written element are read as they were written.

  Names hold no character that ends a name or a tag or begins a quoted value (`Unbroken`), those of elements do not
  begin as other tags do (`ElementText`), and values hold no quote once their references are written. So a tag ends
  at its own `>`, and its name at the first space, whatever follows: each step is stated with a rest behind it. The
  name of an attribute ends at the first equals sign behind its first character. Where that is the one that is
  written (`NameText`), the attributes are read as they were written (`openingOf_written`).

  The lines of an element are spread over the text with white space before them (`Spread`), which is passed over.
-/

import DocWire.Markup.Document
import DocWire.Markup.Written
import DocWire.Proofs.Markup.Reference
import Mathlib.Data.List.Forall2

namespace DocWire.Markup

open Text (isMarkupSpace)

/-- A character at which neither a name nor a tag ends, and no quoted value begins. -/
def Bare (c : Char) : Prop :=
  isMarkupSpace c = false ∧ c ∉ ['>', '\x27', '\x22', '/']

instance (c : Char) : Decidable (Bare c) :=
  inferInstanceAs (Decidable (isMarkupSpace c = false ∧ c ∉ ['>', '\x27', '\x22', '/']))

/-- A text of such characters. -/
def Unbroken (name : String) : Prop := ∀ c ∈ name.toList, Bare c

instance (name : String) : Decidable (Unbroken name) :=
  decidable_of_iff (name.toList.all (fun c => decide (Bare c)) = true) all_chars_iff

/-- A text that can stand as the name of an attribute. -/
structure NameText (name : String) : Prop where
  nonempty : name.toList ≠ []
  whole : '=' ∉ name.toList.tail
  unbroken : Unbroken name

instance (name : String) : Decidable (NameText name) :=
  decidable_of_iff (name.toList ≠ [] ∧ '=' ∉ name.toList.tail ∧ Unbroken name)
    ⟨fun h => ⟨h.1, h.2.1, h.2.2⟩, fun h => ⟨h.nonempty, h.whole, h.unbroken⟩⟩

/-- A text that can stand as the name of an element. -/
structure ElementText (name : String) : Prop where
  nonempty : name.toList ≠ []
  begins : name.toList.head? ∉ [some '!', some '?']
  unbroken : Unbroken name

instance (name : String) : Decidable (ElementText name) :=
  decidable_of_iff (name.toList ≠ [] ∧ name.toList.head? ∉ [some '!', some '?'] ∧ Unbroken name)
    ⟨fun h => ⟨h.1, h.2.1, h.2.2⟩, fun h => ⟨h.nonempty, h.begins, h.unbroken⟩⟩

theorem Bare.ne {c d : Char} (h : Bare c) (hd : d ∈ ['>', '\x27', '\x22', '/']) : c ≠ d := by
  rintro rfl
  exact h.2 hd

theorem Unbroken.tagless {name : String} (h : Unbroken name) : ∀ c ∈ name.toList, c ≠ '>' ∧ c ≠ '\x22' ∧ c ≠ '\x27' :=
  fun c hc => ⟨(h c hc).ne (by decide), (h c hc).ne (by decide), (h c hc).ne (by decide)⟩

/-! ## The end of a tag -/

theorem tagContent?_plain {cs : List Char} (h : ∀ c ∈ cs, c ≠ '>' ∧ c ≠ '\x22' ∧ c ≠ '\x27') (done s : List Char) :
    tagContent? none done (cs ++ s) = tagContent? none (cs.reverse ++ done) s := by
  induction cs generalizing done with
  | nil => rfl
  | cons c rest ih =>
    obtain ⟨h1, h2, h3⟩ := h c List.mem_cons_self
    rw [List.cons_append, tagContent?]
    simp only [h1, h2, h3, or_self, if_false]
    rw [ih fun d hd => h d (List.mem_cons_of_mem _ hd), List.reverse_cons, List.append_assoc]
    rfl

theorem tagContent?_quoted {cs : List Char} (h : ∀ c ∈ cs, c ≠ '\x22') (done s : List Char) :
    tagContent? (some '\x22') done (cs ++ '\x22' :: s) = tagContent? none ('\x22' :: cs.reverse ++ done) s := by
  induction cs generalizing done with
  | nil => rfl
  | cons c rest ih =>
    rw [List.cons_append, tagContent?]
    simp only [h c List.mem_cons_self, if_false]
    rw [ih fun d hd => h d (List.mem_cons_of_mem _ hd)]
    simp

/-! ## Attributes -/

/-- An attribute with its space, as it is written. -/
def attributeChars (a : String × String) : List Char :=
  ' ' :: (a.1.toList ++ '=' :: '\x22' :: ((escape a.2).toList ++ ['\x22']))

theorem toList_attributeText (attrs : List (String × String)) :
    (Written.attributeText attrs).toList = attrs.flatMap attributeChars := by
  induction attrs with
  | nil => rfl
  | cons a rest ih =>
    obtain ⟨name, value⟩ := a
    simp only [Written.attributeText, String.toList_append, ih, List.flatMap_cons, attributeChars]
    simp

theorem tagContent?_attributes {attrs : List (String × String)} (h : ∀ a ∈ attrs, Unbroken a.1) (done s : List Char) :
    tagContent? none done (attrs.flatMap attributeChars ++ s) =
      tagContent? none ((attrs.flatMap attributeChars).reverse ++ done) s := by
  induction attrs generalizing done with
  | nil => rfl
  | cons a rest ih =>
    have hname : ∀ c ∈ ' ' :: (a.1.toList ++ ['=']), c ≠ '>' ∧ c ≠ '\x22' ∧ c ≠ '\x27' := by
      intro c hc
      rcases List.mem_cons.mp hc with rfl | hc
      · decide
      rcases List.mem_append.mp hc with hc | hc
      · exact (h a List.mem_cons_self).tagless c hc
      · obtain rfl := List.mem_singleton.mp hc
        decide
    have hvalue : ∀ c ∈ (escape a.2).toList, c ≠ '\x22' := fun c hc => (mem_escape hc).2.2.2
    have hsplit : ∀ t : List Char, attributeChars a ++ t =
        ' ' :: (a.1.toList ++ ['=']) ++ '\x22' :: ((escape a.2).toList ++ '\x22' :: t) := by
      intro t
      simp [attributeChars]
    rw [List.flatMap_cons, List.append_assoc, hsplit, tagContent?_plain hname, tagContent?]
    rw [if_neg (by decide), if_pos (.inl rfl), tagContent?_quoted hvalue,
      ih fun b hb => h b (List.mem_cons_of_mem _ hb)]
    congr 1
    simp [attributeChars]

theorem quotedValue?_written {cs : List Char} (h : ∀ c ∈ cs, c ≠ '\x22') (s : List Char) :
    quotedValue? ('\x22' :: (cs ++ '\x22' :: s)) = some (cs, s) := by
  have hall : ∀ c ∈ cs, (c != '\x22') = true := fun c hc => bne_iff_ne.mpr (h c hc)
  simp only [quotedValue?, List.dropWhile_append_of_pos hall, List.takeWhile_append_of_pos hall]
  simp

/-- A name ends at the first equals sign behind its first character, and then a value must follow. -/
theorem attribute?_named {c d : Char} {front : List Char} (hfront : ∀ x ∈ front, Bare x ∧ x ≠ '=')
    (hd : isMarkupSpace d = false) (s : List Char) :
    attribute? (c :: (front ++ '=' :: d :: s)) = (quotedValue? (d :: s)).map fun (value, behind) =>
      ((String.ofList (c :: front), String.ofList value), behind) := by
  have hin : ∀ x ∈ front, (x != '=' && !isMarkupSpace x) = true := by
    intro x hx
    obtain ⟨hbare, hne⟩ := hfront x hx
    rw [hbare.1, bne_iff_ne.mpr hne]
    rfl
  have hstop : ('=' :: d :: s).dropWhile isMarkupSpace = '=' :: d :: s := by
    rw [List.dropWhile_cons, if_neg (by decide)]
  have hvalue : (d :: s).dropWhile isMarkupSpace = d :: s := by
    rw [List.dropWhile_cons, hd, if_neg Bool.false_ne_true]
  rw [attribute?]
  simp only [List.dropWhile_append_of_pos hin, List.takeWhile_append_of_pos hin]
  rw [List.dropWhile_cons, if_neg (by decide), hstop, List.takeWhile_cons, if_neg (by decide), List.append_nil]
  simp only [hvalue]

theorem attribute?_written {a : String × String} (h : NameText a.1) (s : List Char) :
    attribute? (a.1.toList ++ '=' :: '\x22' :: ((escape a.2).toList ++ '\x22' :: s)) = some ((a.1, escape a.2), s) := by
  obtain ⟨name, value⟩ := a
  obtain ⟨hne, hwhole, hbare⟩ := h
  simp only at hne hwhole hbare ⊢
  obtain ⟨c, rest, hname⟩ := List.exists_cons_of_ne_nil hne
  have hrest : ∀ x ∈ rest, Bare x ∧ x ≠ '=' := by
    intro x hx
    refine ⟨hbare x (by rw [hname]; exact List.mem_cons_of_mem _ hx), ?_⟩
    rintro rfl
    exact hwhole (by rwa [hname])
  have hvalue : ∀ c ∈ (escape value).toList, c ≠ '\x22' := fun c hc => (mem_escape hc).2.2.2
  rw [hname, List.cons_append, attribute?_named hrest (by decide), quotedValue?_written hvalue, Option.map_some, ← hname,
    String.ofList_toList]
  simp only [String.ofList_toList]

/-- The reading of attributes begins with the first one that is written. -/
theorem readAttributes_cons {a : String × String} (h : Unbroken a.1) (hne : a.1.toList ≠ []) (room : Nat)
    (s : List Char) : readAttributes (room + 1) (attributeChars a ++ s) =
      match attribute? (a.1.toList ++ '=' :: '\x22' :: ((escape a.2).toList ++ '\x22' :: s)) with
      | none => ([], false)
      | some (attr, behind) => (attr :: (readAttributes room behind).1, (readAttributes room behind).2) := by
  obtain ⟨c, name, hname⟩ := List.exists_cons_of_ne_nil hne
  have hdrop : (attributeChars a ++ s).dropWhile isMarkupSpace =
      a.1.toList ++ '=' :: '\x22' :: ((escape a.2).toList ++ '\x22' :: s) := by
    have hc : isMarkupSpace c = false := (h c (by rw [hname]; exact List.mem_cons_self)).1
    simp only [attributeChars, List.cons_append, List.dropWhile_cons]
    rw [if_pos (by decide), hname]
    simp [hc]
  rw [readAttributes, hdrop]
  split
  · rename_i he
    exact absurd he (by simp [hne])
  · rfl

theorem readAttributes_written {attrs : List (String × String)} (h : ∀ a ∈ attrs, NameText a.1) {room : Nat}
    (hroom : attrs.length < room) :
    readAttributes room (attrs.flatMap attributeChars) = (attrs.map fun a => (a.1, escape a.2), true) := by
  induction attrs generalizing room with
  | nil =>
    obtain ⟨room, rfl⟩ := Nat.exists_eq_succ_of_ne_zero (Nat.ne_of_gt hroom)
    rfl
  | cons a rest ih =>
    obtain ⟨room, rfl⟩ := Nat.exists_eq_succ_of_ne_zero (Nat.ne_of_gt (Nat.lt_of_le_of_lt (Nat.zero_le _) hroom))
    have ha := h a List.mem_cons_self
    rw [List.flatMap_cons, readAttributes_cons ha.unbroken ha.nonempty, attribute?_written ha]
    simp only [ih (fun b hb => h b (List.mem_cons_of_mem _ hb)) (Nat.lt_of_succ_lt_succ hroom), List.map_cons]

/-! ## Tags -/

/-- The opening tag that is written for a name and attributes. -/
def writtenOpening (name : String) (attrs : List (String × String)) : Opening :=
  ⟨name, attrs.map fun a => (a.1, escape a.2), true⟩

/-- The opening tag that is read of it. -/
def openingOf (name : String) (attrs : List (String × String)) : Opening :=
  let read := readAttributes ((attrs.flatMap attributeChars).length + 1) (attrs.flatMap attributeChars)
  ⟨name, read.1, read.2⟩

theorem length_attributes (attrs : List (String × String)) : attrs.length ≤ (attrs.flatMap attributeChars).length := by
  induction attrs with
  | nil => exact Nat.le_refl 0
  | cons a rest ih =>
    rw [List.flatMap_cons, List.length_append, attributeChars]
    simp only [List.length_cons]
    omega

theorem openingOf_written {attrs : List (String × String)} (h : ∀ a ∈ attrs, NameText a.1) (name : String) :
    openingOf name attrs = writtenOpening name attrs := by
  simp only [openingOf, readAttributes_written h (Nat.lt_succ_of_le (length_attributes attrs)), writtenOpening]

theorem ofContent_written {name : String} (hn : Unbroken name) (attrs : List (String × String)) :
    Opening.ofContent (name.toList ++ attrs.flatMap attributeChars) = openingOf name attrs := by
  have hname : ∀ c ∈ name.toList, (!isMarkupSpace c) = true := fun c hc => by rw [(hn c hc).1]; rfl
  have hbehind : (attrs.flatMap attributeChars).dropWhile (!isMarkupSpace ·) = attrs.flatMap attributeChars ∧
      (attrs.flatMap attributeChars).takeWhile (!isMarkupSpace ·) = [] := by
    cases attrs with
    | nil => exact ⟨rfl, rfl⟩
    | cons a rest => exact ⟨rfl, rfl⟩
  simp only [Opening.ofContent, List.dropWhile_append_of_pos hname, List.takeWhile_append_of_pos hname, hbehind.1,
    hbehind.2, List.append_nil, String.ofList_toList, openingOf]

/-- A text that is read as one tag, or passed over, whatever stands behind it. -/
def Reads (text : List Char) (tag? : Option Tag) : Prop :=
  ∃ body, text = '<' :: body ∧ ∀ rest, readTag (body ++ rest) = .ok (tag?, rest)

/-- A tag whose first character is the first of its name is an opening one. -/
theorem readTag_bare {c : Char} (hc : Bare c) (hbegins : some c ∉ [some '!', some '?']) (s : List Char) :
    readTag (c :: s) = match tagContent? none [] (c :: s) with
      | some ('/' :: reversed, rest) => .ok (some (.empty (.ofContent reversed.reverse)), rest)
      | some (reversed, rest) => .ok (some (.opening (.ofContent reversed.reverse)), rest)
      | none => .error .unclosedTag := by
  have h1 : c ≠ '!' := by
    rintro rfl
    exact hbegins (by decide)
  have h2 : c ≠ '?' := by
    rintro rfl
    exact hbegins (by decide)
  have h3 : c ≠ '/' := hc.ne (by decide)
  unfold readTag
  split
  · rename_i he; cases he
  · rename_i he; cases he; exact absurd rfl h1
  · rename_i he; cases he; exact absurd rfl h1
  · rename_i he; cases he; exact absurd rfl h1
  · rename_i he; cases he; exact absurd rfl h2
  · rename_i he; cases he; exact absurd rfl h3
  · rfl

theorem tagContent?_written {name : String} {attrs : List (String × String)} (hn : Unbroken name)
    (ha : ∀ a ∈ attrs, Unbroken a.1) (done s : List Char) :
    tagContent? none done (name.toList ++ attrs.flatMap attributeChars ++ s) =
      tagContent? none ((name.toList ++ attrs.flatMap attributeChars).reverse ++ done) s := by
  rw [List.append_assoc, tagContent?_plain hn.tagless, tagContent?_attributes ha, List.reverse_append, List.append_assoc]

theorem reads_empty {name : String} {attrs : List (String × String)} (h : ElementText name)
    (ha : ∀ a ∈ attrs, Unbroken a.1) :
    Reads ("<" ++ name ++ Written.attributeText attrs ++ "/>").toList (some (.empty (openingOf name attrs))) := by
  obtain ⟨hne, hbegins, hn⟩ := h
  refine ⟨name.toList ++ attrs.flatMap attributeChars ++ ['/', '>'], ?_, fun rest => ?_⟩
  · simp only [String.toList_append, toList_attributeText]
    simp
  have hcontent : tagContent? none [] (name.toList ++ attrs.flatMap attributeChars ++ ['/', '>'] ++ rest) =
      some ('/' :: (name.toList ++ attrs.flatMap attributeChars).reverse, rest) := by
    rw [List.append_assoc, tagContent?_written hn ha]
    simp [tagContent?]
  obtain ⟨c, tail, hname⟩ := List.exists_cons_of_ne_nil hne
  have hc : Bare c := hn c (by rw [hname]; exact List.mem_cons_self)
  rw [hname, List.head?_cons] at hbegins
  have hshape : name.toList ++ attrs.flatMap attributeChars ++ ['/', '>'] ++ rest =
      c :: (tail ++ attrs.flatMap attributeChars ++ ['/', '>'] ++ rest) := by
    rw [hname]
    rfl
  rw [hshape, readTag_bare hc hbegins, ← hshape, hcontent]
  simp only [List.reverse_reverse, ofContent_written hn]

/-- The content of an opening tag does not end in a slash. -/
theorem content_last {name : String} (hn : Unbroken name) (attrs : List (String × String)) (t : List Char) :
    (name.toList ++ attrs.flatMap attributeChars).reverse ≠ '/' :: t := by
  intro h
  have hmem : (name.toList ++ attrs.flatMap attributeChars).getLast? = some '/' := by
    rw [← List.head?_reverse, h]
    rfl
  rcases List.eq_nil_or_concat attrs with rfl | ⟨init, a, rfl⟩
  · rw [List.flatMap_nil, List.append_nil] at hmem
    exact (hn _ (List.mem_of_getLast? hmem)).ne (by decide) rfl
  · have hend : attributeChars a = ' ' :: (a.1.toList ++ '=' :: '\x22' :: (escape a.2).toList) ++ ['\x22'] := by
      simp [attributeChars]
    rw [List.concat_eq_append, List.flatMap_append, List.flatMap_singleton, hend, ← List.append_assoc,
      ← List.append_assoc, List.getLast?_concat] at hmem
    cases hmem

theorem reads_opening {name : String} {attrs : List (String × String)} (h : ElementText name)
    (ha : ∀ a ∈ attrs, Unbroken a.1) :
    Reads ("<" ++ name ++ Written.attributeText attrs ++ ">").toList (some (.opening (openingOf name attrs))) := by
  obtain ⟨hne, hbegins, hn⟩ := h
  refine ⟨name.toList ++ attrs.flatMap attributeChars ++ ['>'], ?_, fun rest => ?_⟩
  · simp only [String.toList_append, toList_attributeText]
    simp
  have hcontent : tagContent? none [] (name.toList ++ attrs.flatMap attributeChars ++ ['>'] ++ rest) =
      some ((name.toList ++ attrs.flatMap attributeChars).reverse, rest) := by
    rw [List.append_assoc, tagContent?_written hn ha]
    simp [tagContent?]
  obtain ⟨c, tail, hname⟩ := List.exists_cons_of_ne_nil hne
  have hc : Bare c := hn c (by rw [hname]; exact List.mem_cons_self)
  rw [hname, List.head?_cons] at hbegins
  have hshape : name.toList ++ attrs.flatMap attributeChars ++ ['>'] ++ rest =
      c :: (tail ++ attrs.flatMap attributeChars ++ ['>'] ++ rest) := by
    rw [hname]
    rfl
  have hlast := content_last hn attrs
  have hback : (name.toList ++ attrs.flatMap attributeChars).reverse.reverse =
      name.toList ++ attrs.flatMap attributeChars := List.reverse_reverse _
  rw [hshape, readTag_bare hc hbegins, ← hshape, hcontent]
  generalize (name.toList ++ attrs.flatMap attributeChars).reverse = reversed at hlast hback ⊢
  split
  · rename_i he
    cases he
    exact absurd rfl (hlast _)
  · rename_i he
    cases he
    rw [hback, ofContent_written hn]
  · rename_i he
    cases he

theorem reads_closing {name : String} (hn : Unbroken name) :
    Reads ("</" ++ name ++ ">").toList (some (.closing name)) := by
  refine ⟨'/' :: (name.toList ++ ['>']), ?_, fun rest => ?_⟩
  · simp only [String.toList_append]
    simp
  have hcontent : tagContent? none [] (name.toList ++ ['>'] ++ rest) = some (name.toList.reverse, rest) := by
    rw [List.append_assoc, tagContent?_plain hn.tagless]
    simp [tagContent?]
  have hclosing : closingName name.toList.reverse = name := by
    have hdrop : name.toList.reverse.dropWhile isMarkupSpace = name.toList.reverse := by
      cases hr : name.toList.reverse with
      | nil => rfl
      | cons c t =>
        have hc : c ∈ name.toList := List.mem_reverse.mp (by rw [hr]; exact List.mem_cons_self)
        rw [List.dropWhile_cons, (hn c hc).1, if_neg Bool.false_ne_true]
    rw [closingName, hdrop]
    simp
  rw [List.cons_append, readTag]
  simp only [hcontent, hclosing]

theorem behind?_append {cs : List Char} (h : '?' ∉ cs) (s : List Char) :
    behind? ['?', '>'] (cs ++ '?' :: '>' :: s) = some s := by
  induction cs with
  | nil => simp [behind?]
  | cons c rest ih =>
    simp only [List.mem_cons, not_or] at h
    rw [List.cons_append, behind?, if_neg, ih h.2]
    simp [h.1]

theorem reads_declaration : Reads Written.declaration.toList none := by
  have htext : Written.declaration.toList =
      '<' :: '?' :: 'x' :: ("ml version=\"1.0\" encoding=\"UTF-8\"".toList ++ ['?', '>']) := by decide
  have hnone : '?' ∉ 'x' :: "ml version=\"1.0\" encoding=\"UTF-8\"".toList := by decide
  refine ⟨_, htext, fun rest => ?_⟩
  have hbehind := behind?_append hnone rest
  simp only [List.cons_append, List.append_assoc, List.nil_append] at hbehind ⊢
  generalize "ml version=\"1.0\" encoding=\"UTF-8\"".toList ++ '?' :: '>' :: rest = body at hbehind ⊢
  simp only [readTag, hbehind]
  rfl

/-! ## All tags of a text -/

/-- Pieces that follow each other with white space before each. -/
inductive Spread : List (List Char) → List Char → Prop
  | nil : Spread [] []
  | cons {space piece rest : List Char} {pieces : List (List Char)} : (∀ c ∈ space, isMarkupSpace c = true) →
      Spread pieces rest → Spread (piece :: pieces) (space ++ piece ++ rest)

theorem tagsFrom_spread {pieces : List (List Char)} {s : List Char} (h : Spread pieces s) {ts : List (Option Tag)}
    (hr : List.Forall₂ Reads pieces ts) {room : Nat} (hroom : pieces.length < room) :
    tagsFrom room s = ts.filterMap id := by
  induction h generalizing ts room with
  | nil =>
    cases hr
    obtain ⟨room, rfl⟩ := Nat.exists_eq_succ_of_ne_zero (Nat.ne_of_gt hroom)
    rfl
  | cons hspace hrest ih =>
    rename_i space piece rest pieces
    obtain ⟨room, rfl⟩ := Nat.exists_eq_succ_of_ne_zero (Nat.ne_of_gt (Nat.lt_of_le_of_lt (Nat.zero_le _) hroom))
    cases hr with
    | cons hread hreads =>
      rename_i tag? ts
      obtain ⟨body, rfl, hbody⟩ := hread
      have hrest := ih hreads (Nat.lt_of_succ_lt_succ hroom)
      have hdrop : (space ++ '<' :: body ++ rest).dropWhile isMarkupSpace = '<' :: (body ++ rest) := by
        rw [List.append_assoc, List.dropWhile_append_of_pos hspace, List.cons_append, List.dropWhile_cons,
          if_neg (by decide)]
      have htext : ('<' :: (body ++ rest)).takeWhile (· != '<') = [] := by
        rw [List.takeWhile_cons, if_neg (by decide)]
      have htag : ('<' :: (body ++ rest)).dropWhile (· != '<') = '<' :: (body ++ rest) := by
        rw [List.dropWhile_cons, if_neg (by decide)]
      simp only [tagsFrom, hdrop, htext, htag, hbody rest]
      cases tag? with
      | none => simpa [textTag] using hrest
      | some tag => simpa [textTag] using hrest

end DocWire.Markup
