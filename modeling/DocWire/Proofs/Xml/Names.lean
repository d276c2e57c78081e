/-
  DocWire.Proofs.Xml.Names — names, prefixes and namespaces of messages.

  A name that XML can carry (`XmlSafe`) is a name in its markup form and holds no `_-`. A message prefix is
  always a usable one, whatever the name (`messagePrefix_usable`). The namespace of a message gives its key or
  its function back, where neither holds `_-`; the namespace of the message kind gives nothing.
-/

import DocWire.Proofs.Markup.Element
import DocWire.Proofs.Schema.Key
import DocWire.Xml.Options

namespace DocWire

open Markup (Bare ElementText NameText Simple Declarable)
open Text (inRanges)

/-! ## Names -/

namespace Markup

/-- The characters that a name may start with, the colon apart. -/
def nameStartRanges : List (Nat × Nat) :=
  [(0x41, 0x5a), (0x5f, 0x5f), (0x61, 0x7a), (0xc0, 0xd6), (0xd8, 0xf6), (0xf8, 0x2ff), (0x370, 0x37d), (0x37f, 0x1fff),
   (0x200c, 0x200d), (0x2070, 0x218f), (0x2c00, 0x2fef), (0x3001, 0xd7ff), (0xf900, 0xfdcf), (0xfdf0, 0xfffd),
   (0x10000, 0xeffff)]

/-- The characters that a name may go on with. -/
def nameRanges : List (Nat × Nat) :=
  nameStartRanges ++ [(0x2d, 0x2e), (0x30, 0x39), (0xb7, 0xb7), (0x300, 0x36f), (0x203f, 0x2040)]

/-- A name of XML 1.0 without a colon. -/
def IsName (name : String) : Prop :=
  ∃ c rest, name.toList = c :: rest ∧ inRanges nameStartRanges c.toNat = true ∧
    ∀ d ∈ rest, inRanges nameRanges d.toNat = true

instance (name : String) : Decidable (IsName name) :=
  match h : name.toList with
  | [] => isFalse fun ⟨_, _, hn, _⟩ => by
    rw [h] at hn
    cases hn
  | c :: rest => decidable_of_iff
      (inRanges nameStartRanges c.toNat = true ∧ rest.all (fun d => inRanges nameRanges d.toNat) = true)
      ⟨fun ⟨hc, hrest⟩ => ⟨c, rest, h, hc, List.all_eq_true.mp hrest⟩, fun ⟨_, _, hn, hc, hrest⟩ => by
        rw [h] at hn
        cases hn
        exact ⟨hc, List.all_eq_true.mpr hrest⟩⟩

theorem IsName.bare {name : String} (h : IsName name) : NameText name ∧ ':' ∉ name.toList := by
  obtain ⟨c, rest, hname, hc, hrest⟩ := h
  have hstart : inRanges nameRanges c.toNat = true := by
    rw [inRanges, nameRanges, List.any_append]
    exact Bool.or_eq_true_iff.mpr (.inl hc)
  have hall : ∀ d ∈ name.toList, inRanges nameRanges d.toNat = true := by
    rw [hname]
    intro d hd
    rcases List.mem_cons.mp hd with rfl | hd
    · exact hstart
    · exact hrest d hd
  have hout : ∀ d ∈ [' ', '\t', '\n', '\r', '>', '\x27', '\x22', '=', '/', ':'],
      inRanges nameRanges d.toNat = false := all_chars (by decide)
  have hne : ∀ d ∈ name.toList,
      d ∉ [' ', '\t', '\n', '\r', '>', '\x27', '\x22', '=', '/', ':'] := fun d hd hm => by
    have := hall d hd
    rw [hout d hm] at this
    cases this
  refine ⟨⟨by simp [hname], fun hm => hne _ (List.mem_of_mem_tail hm) (by decide), ?_⟩, fun hm => hne _ hm (by decide)⟩
  intro d hd
  have := hne d hd
  simp only [List.mem_cons, List.not_mem_nil, or_false, not_or] at this
  simp [Bare, Text.isMarkupSpace, this]

end Markup

/-- A name that XML can carry. -/
structure XmlSafe (name : String) : Prop where
  isName : Markup.IsName (Name.escape name)
  markless : Name.Markless name

/-- A field name that XML can carry: none that an attribute has of its own. -/
structure XmlSafeField (name : String) : Prop where
  safe : XmlSafe name
  unreserved : name ≠ "parent" ∧ name ≠ "document" ∧ name ≠ "xmlns"

instance XmlSafe.decidable (name : String) : Decidable (XmlSafe name) :=
  decidable_of_iff (Markup.IsName (Name.escape name) ∧ Name.Markless name) ⟨fun h => ⟨h.1, h.2⟩, fun h => ⟨h.isName, h.markless⟩⟩

instance XmlSafeField.decidable (name : String) : Decidable (XmlSafeField name) :=
  decidable_of_iff (XmlSafe name ∧ name ≠ "parent" ∧ name ≠ "document" ∧ name ≠ "xmlns")
    ⟨fun h => ⟨h.1, h.2⟩, fun h => ⟨h.safe, h.unreserved⟩⟩

/-- A field name that is read back from its attribute: none that is passed over, and without `_-`. -/
structure Legible (name : String) : Prop where
  markless : Name.Markless name
  unreserved : name ≠ "parent" ∧ name ≠ "document"

instance Legible.decidable (name : String) : Decidable (Legible name) :=
  decidable_of_iff (Name.Markless name ∧ name ≠ "parent" ∧ name ≠ "document")
    ⟨fun h => ⟨h.1, h.2⟩, fun h => ⟨h.markless, h.unreserved⟩⟩

theorem Legible.escape_ne {name : String} (h : Legible name) :
    Name.escape name ≠ "parent" ∧ Name.escape name ≠ "document" := by
  have hback := Name.unescape_escape h.markless
  constructor
  · intro he
    refine h.unreserved.1 ?_
    rw [← hback, he]
    decide
  · intro he
    refine h.unreserved.2 ?_
    rw [← hback, he]
    decide

theorem XmlSafe.nameText {name : String} (h : XmlSafe name) :
    NameText (Name.escape name) ∧ ':' ∉ (Name.escape name).toList :=
  h.isName.bare

theorem XmlSafeField.legible {name : String} (h : XmlSafeField name) : Legible name :=
  ⟨h.safe.markless, h.unreserved.1, h.unreserved.2.1⟩

theorem XmlSafeField.escape_ne {name : String} (h : XmlSafeField name) :
    Name.escape name ≠ "parent" ∧ Name.escape name ≠ "document" ∧ Name.escape name ≠ "xmlns" := by
  refine ⟨h.legible.escape_ne.1, h.legible.escape_ne.2, fun he => h.unreserved.2.2 ?_⟩
  rw [← Name.unescape_escape h.safe.markless, he]
  decide

theorem XmlSafeField.simple {name : String} (h : XmlSafeField name) : Simple (Name.escape name) :=
  ⟨h.safe.nameText.1, h.safe.nameText.2, h.escape_ne.2.2⟩

/-! ## Prefixes -/

/-- The characters of a name in markup form, an underscore for each that no prefix may hold. -/
def prefixChars (name : String) : List Char :=
  (Name.escapeChars name.toList).map fun c => if isPrefixChar c then c else '_'

def startsWell : List Char → Bool
  | c :: _ => isPrefixStart c
  | [] => false

/-- Whether an underscore has to stand in front. -/
def needsUnderscore (reserved : Bool) (s : List Char) : Bool :=
  !startsWell s || reserved || (s == Options.idocPrefix.toList || s == Options.rfcPrefix.toList)

theorem isPrefixChar_of_mem {name : String} : ∀ c ∈ prefixChars name, isPrefixChar c = true := by
  intro c hc
  obtain ⟨d, -, rfl⟩ := List.mem_map.mp hc
  split
  · assumption
  · rfl

theorem messagePrefix_toList (name : String) : (messagePrefix name).toList =
    if needsUnderscore (startsReserved (prefixChars name)) (prefixChars name) then '_' :: prefixChars name
    else prefixChars name :=
  String.toList_ofList

/-- What a prefix must be: characters that it may hold, and none of the reserved names. -/
structure Usable (p : List Char) : Prop where
  nonempty : p ≠ []
  chars : ∀ c ∈ p, isPrefixChar c = true
  unreserved : startsReserved p = false
  untaken : p ≠ "idoc".toList ∧ p ≠ "rfc".toList

theorem usable_underscore {p : List Char} (h : ∀ c ∈ p, isPrefixChar c = true) : Usable ('_' :: p) where
  nonempty := List.cons_ne_nil _ _
  chars c hc := by
    rcases List.mem_cons.mp hc with rfl | hc
    · rfl
    · exact h c hc
  unreserved := rfl
  untaken := ⟨fun he => (by cases he), fun he => (by cases he)⟩

theorem messagePrefix_usable (name : String) : Usable (messagePrefix name).toList := by
  rw [messagePrefix_toList]
  split
  · exact usable_underscore isPrefixChar_of_mem
  · rename_i hgood
    simp only [needsUnderscore, Bool.or_eq_true, Bool.not_eq_true', beq_iff_eq, not_or, Bool.not_eq_true,
      Bool.not_eq_false] at hgood
    obtain ⟨⟨hstart, hunreserved⟩, huntaken⟩ := hgood
    refine ⟨fun hnil => ?_, isPrefixChar_of_mem, hunreserved, huntaken⟩
    rw [hnil] at hstart
    cases hstart

theorem bare_of_isPrefixChar {c : Char} (h : isPrefixChar c = true) : Bare c ∧ c ≠ ':' ∧ c ≠ '=' := by
  have hout : ∀ d ∈ [' ', '\t', '\n', '\r', '>', '\x27', '\x22', '=', '/', ':'],
      isPrefixChar d = false := Markup.all_chars (by decide)
  have hne : c ∉ [' ', '\t', '\n', '\r', '>', '\x27', '\x22', '=', '/', ':'] := fun hm => by
    rw [hout c hm] at h
    cases h
  simp only [List.mem_cons, List.not_mem_nil, or_false, not_or] at hne
  simp [Bare, Text.isMarkupSpace, hne]

theorem messagePrefix_named (name : String) : ElementText (messagePrefix name) ∧ ':' ∉ (messagePrefix name).toList ∧
    '=' ∉ (messagePrefix name).toList := by
  have h := messagePrefix_usable name
  have hbegins : (messagePrefix name).toList.head? ∉ [some '!', some '?'] := by
    intro hm
    have hnot : ∀ c ∈ ['!', '?'], isPrefixChar c = false := Markup.all_chars (by decide)
    obtain ⟨c, hc, hhead⟩ := List.mem_map.mp (show (messagePrefix name).toList.head? ∈ ['!', '?'].map some from hm)
    have hchar := h.chars c (List.mem_of_head? hhead.symm)
    rw [hnot c hc] at hchar
    cases hchar
  exact ⟨⟨h.nonempty, hbegins, fun c hc => (bare_of_isPrefixChar (h.chars c hc)).1⟩,
    fun hm => (bare_of_isPrefixChar (h.chars _ hm)).2.1 rfl, fun hm => (bare_of_isPrefixChar (h.chars _ hm)).2.2 rfl⟩

theorem messagePrefix_unreserved (name : String) : messagePrefix name ≠ "xml" ∧ messagePrefix name ≠ "xmlns" := by
  have h := (messagePrefix_usable name).unreserved
  constructor
  · intro he
    rw [he] at h
    revert h
    decide
  · intro he
    rw [he] at h
    revert h
    decide

theorem messagePrefix_untaken (name : String) : messagePrefix name ≠ "idoc" ∧ messagePrefix name ≠ "rfc" := by
  have h := (messagePrefix_usable name).untaken
  exact ⟨fun he => h.1 (by rw [he]), fun he => h.2 (by rw [he])⟩

/-! ## Namespaces -/

/-- A text without the five characters that markup writes as references. -/
def ReferenceFree (s : String) : Prop := ∀ c ∈ s.toList, c ∉ ['<', '>', '&', '\x27', '\x22']

instance (s : String) : Decidable (ReferenceFree s) :=
  decidable_of_iff (s.toList.all (fun c => decide (c ∉ ['<', '>', '&', '\x27', '\x22'])) = true) Markup.all_chars_iff

theorem ReferenceFree.append {s t : String} (hs : ReferenceFree s) (ht : ReferenceFree t) : ReferenceFree (s ++ t) := by
  intro c hc
  rw [String.toList_append] at hc
  exact (List.mem_append.mp hc).elim (hs c) (ht c)

theorem ReferenceFree.escape {s : String} (h : ReferenceFree s) : ReferenceFree (Name.escape s) := by
  intro c hc
  rw [Name.escape, String.toList_ofList, Name.escapeChars] at hc
  obtain ⟨d, hd, hc⟩ := List.mem_flatMap.mp hc
  split at hc
  · have hall : ∀ c ∈ ['_', '-'], c ∉ ['<', '>', '&', '\x27', '\x22'] := Markup.all_chars (by decide)
    exact hall c hc
  · rw [List.mem_singleton.mp hc]
    exact h d hd

theorem ReferenceFree.trimmedBase {o : Options} (h : ReferenceFree o.base) : ReferenceFree o.trimmedBase := by
  intro c hc
  rw [Options.trimmedBase, String.toList_ofList] at hc
  exact h c (List.mem_reverse.mp ((List.dropWhile_sublist _).subset (List.mem_reverse.mp hc)))

theorem ReferenceFree.idocNamespace {o : Options} (h : ReferenceFree o.base) : ReferenceFree o.idocNamespace :=
  (h.trimmedBase.append (by decide)).append (by decide)

theorem ReferenceFree.rfcNamespace {o : Options} (h : ReferenceFree o.base) : ReferenceFree o.rfcNamespace :=
  (h.trimmedBase.append (by decide)).append (by decide)

theorem ReferenceFree.id {key : TypeKey} (h : ∀ p ∈ key.parts, ReferenceFree p) : ReferenceFree key.id := by
  simp only [TypeKey.parts, List.forall_mem_cons] at h
  obtain ⟨h1, h2, h3, h4, h5, -⟩ := h
  have hslash : ReferenceFree "/" := by decide
  rw [TypeKey.id_eq]
  exact (h1.escape.append hslash).append ((h2.escape.append hslash).append ((h3.escape.append hslash).append
    ((h4.escape.append hslash).append h5.escape)))

/-- A namespace below a base is none of the two that are bound from the start: neither holds a `d` or
an `f`. -/
theorem ne_reserved {uri : String} (h : 'd' ∈ uri.toList ∨ 'f' ∈ uri.toList) :
    uri ≠ Markup.xmlUri ∧ uri ≠ Markup.xmlnsUri := by
  constructor
  · rintro rfl
    revert h
    decide
  · rintro rfl
    revert h
    decide

theorem ne_empty_of_mem {uri : String} (h : 'd' ∈ uri.toList ∨ 'f' ∈ uri.toList) : uri ≠ "" := by
  rintro rfl
  revert h
  decide

/-- A prefix of a message kind, or of a message, may be declared for a namespace below the base. -/
theorem declarable {p uri : String} (hp : ElementText p ∧ ':' ∉ p.toList ∧ '=' ∉ p.toList)
    (hu : p ≠ "xml" ∧ p ≠ "xmlns") (hf : ReferenceFree uri) (hmem : 'd' ∈ uri.toList ∨ 'f' ∈ uri.toList) :
    Declarable p uri where
  named := hp.1
  colonless := hp.2.1
  equalless := hp.2.2
  unreserved := hu
  uriNonempty := ne_empty_of_mem hmem
  uriPlain := Markup.escape_eq_self hf
  uriUnreserved := ne_reserved hmem

theorem kind_named : (ElementText "idoc" ∧ ':' ∉ "idoc".toList ∧ '=' ∉ "idoc".toList) ∧
    (ElementText "rfc" ∧ ':' ∉ "rfc".toList ∧ '=' ∉ "rfc".toList) := by decide

theorem mem_idocNamespace (o : Options) : 'd' ∈ o.idocNamespace.toList := by
  simp [Options.idocNamespace, Options.idocPrefix]

theorem mem_rfcNamespace (o : Options) : 'f' ∈ o.rfcNamespace.toList := by
  simp [Options.rfcNamespace, Options.rfcPrefix]

theorem mem_messageNamespace (o : Options) (key : TypeKey) : 'd' ∈ (o.messageNamespace key).toList := by
  rw [Options.messageNamespace, String.toList_append, String.toList_append]
  exact List.mem_append_left _ (List.mem_append_left _ (mem_idocNamespace o))

theorem mem_functionNamespace (o : Options) (function : String) : 'f' ∈ (o.functionNamespace function).toList := by
  rw [Options.functionNamespace, String.toList_append, String.toList_append]
  exact List.mem_append_left _ (List.mem_append_left _ (mem_rfcNamespace o))

/-- The declarations of a document. -/
theorem declarable_document {o : Options} {key : TypeKey} (ho : ReferenceFree o.base)
    (hk : ∀ p ∈ key.parts, ReferenceFree p) :
    Declarable "idoc" o.idocNamespace ∧ Declarable (messagePrefix key.basicType) (o.messageNamespace key) := by
  have hslash : ReferenceFree "/" := by decide
  exact ⟨declarable kind_named.1 (by decide) ho.idocNamespace (.inl (mem_idocNamespace o)),
    declarable (messagePrefix_named _) (messagePrefix_unreserved _)
      ((ho.idocNamespace.append hslash).append (.id hk)) (.inl (mem_messageNamespace o key))⟩

/-- The declarations of a parameter set. -/
theorem declarable_record {o : Options} {function : String} (ho : ReferenceFree o.base) (hf : ReferenceFree function) :
    Declarable "rfc" o.rfcNamespace ∧ Declarable (messagePrefix function) (o.functionNamespace function) := by
  have hslash : ReferenceFree "/" := by decide
  exact ⟨declarable kind_named.2 (by decide) ho.rfcNamespace (.inr (mem_rfcNamespace o)),
    declarable (messagePrefix_named _) (messagePrefix_unreserved _)
      ((ho.rfcNamespace.append hslash).append hf.escape) (.inr (mem_functionNamespace o function))⟩

/-! ## What a namespace gives back -/

theorem below?_below (ns id : String) : Options.below? ns (ns ++ "/" ++ id) = some id := by
  simp only [Options.below?, String.toList_append]
  rw [if_pos (by rw [List.isPrefixOf_iff_prefix]; exact List.prefix_append _ _), List.drop_left, String.ofList_toList]

theorem below?_self (ns : String) : Options.below? ns ns = none := by
  simp only [Options.below?]
  rw [if_neg]
  intro h
  have := (List.isPrefixOf_iff_prefix.mp h).length_le
  simp only [String.toList_append, List.length_append] at this
  have hslash : "/".toList.length = 1 := by decide
  omega

theorem messageId?_messageNamespace (o : Options) (key : TypeKey) :
    o.messageId? (o.messageNamespace key) = some key.id := below?_below _ _

theorem messageId?_idocNamespace (o : Options) : o.messageId? o.idocNamespace = none := below?_self _

theorem functionName?_rfcNamespace (o : Options) : o.functionName? o.rfcNamespace = none := by
  rw [Options.functionName?, below?_self]
  rfl

theorem functionName?_functionNamespace (o : Options) {function : String} (hne : function ≠ "") :
    o.functionName? (o.functionNamespace function) = some (Name.unescape (Name.escape function)) := by
  have hempty : (Name.escape function).isEmpty = false := by simpa using Name.escape_ne_empty hne
  have hslash : (Name.escape function).toList.contains '/' = false := by
    simpa using Name.slash_not_mem_escape function
  simp only [Options.functionName?, Options.functionNamespace, below?_below, Option.bind_some, hempty, hslash,
    Bool.or_self, Bool.false_eq_true, if_false]

end DocWire
