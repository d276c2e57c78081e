/-
  DocWire.Proofs.Schema.Key — the ids of message types, and the keys of segment types.

  A part of a key has no slash in its markup form, so an id falls into the parts again, and it gives its key
  back exactly where the first two parts are not empty and no part holds `_-` (`ofId?_id_iff`). The pieces of a
  text that is read as an id have no slash, so nothing of them is lost: the key that is read has that id
  (`id_of_ofId?`).

  A segment key is an id, a colon and the segment type. A colon may stand in the last part of the id as well as
  in the name of a segment type, so where the colon between them stands is not told by the key: two segment keys
  are equal exactly when the first four parts have one markup form each and the rest is one text
  (`segmentKey_eq_iff`). Where no part holds `_-` and one side of the colon has no other, they are keys of one
  segment type of one message type (`segmentKey_inj_of_markless`).
-/

import DocWire.Proofs.Name
import DocWire.Schema.Key
import Mathlib.Data.List.Basic

namespace DocWire

theorem TypeKey.id_eq (key : TypeKey) : key.id = Name.escape key.repository ++ "/" ++ (Name.escape key.basicType ++ "/" ++
    (Name.escape key.extension ++ "/" ++ (Name.escape key.systemRelease ++ "/" ++
      Name.escape key.applicationRelease))) := by
  simp only [TypeKey.id, TypeKey.parts, List.map_cons, List.map_nil, String.intercalate_cons_cons,
    String.intercalate_singleton]

theorem splitAtChar_none {sep : Char} {s : List Char} (h : sep ∉ s) : splitAtChar sep s = [s] := by
  induction s with
  | nil => rfl
  | cons c rest ih =>
    simp only [List.mem_cons, not_or] at h
    rw [splitAtChar, if_neg (Ne.symm h.1), ih h.2]

theorem splitAtChar_append {sep : Char} {s : List Char} (h : sep ∉ s) (t : List Char) :
    splitAtChar sep (s ++ sep :: t) = s :: splitAtChar sep t := by
  induction s with
  | nil => simp [splitAtChar]
  | cons c rest ih =>
    simp only [List.mem_cons, not_or] at h
    rw [List.cons_append, splitAtChar, if_neg (Ne.symm h.1), ih h.2]

theorem splitAtChar_ne_nil (sep : Char) (s : List Char) : splitAtChar sep s ≠ [] := by
  cases s with
  | nil => exact List.cons_ne_nil _ _
  | cons c rest =>
    rw [splitAtChar]
    split
    · exact List.cons_ne_nil _ _
    · split
      · exact List.cons_ne_nil _ _
      · exact List.cons_ne_nil _ _

/-- The pieces of a text, joined by the separator, are the text. -/
theorem joined_splitAtChar (sep : Char) (s : List Char) : [sep].intercalate (splitAtChar sep s) = s := by
  induction s with
  | nil => rfl
  | cons c rest ih =>
    rw [splitAtChar]
    cases hpieces : splitAtChar sep rest with
    | nil => exact absurd hpieces (splitAtChar_ne_nil sep rest)
    | cons piece pieces =>
      rw [hpieces] at ih
      by_cases hc : c = sep
      · rw [if_pos hc, hc, List.intercalate_cons_cons, ih]
        rfl
      · rw [if_neg hc]
        cases pieces with
        | nil => simpa using ih
        | cons p ps =>
          simp only [List.intercalate_cons_cons] at ih ⊢
          rw [← ih]
          rfl

theorem not_mem_splitAtChar {sep : Char} {s piece : List Char} (h : piece ∈ splitAtChar sep s) : sep ∉ piece := by
  induction s generalizing piece with
  | nil =>
    rw [splitAtChar, List.mem_singleton] at h
    simp [h]
  | cons c rest ih =>
    rw [splitAtChar] at h
    by_cases hc : c = sep
    · rw [if_pos hc] at h
      rcases List.mem_cons.mp h with rfl | h
      · exact List.not_mem_nil
      · exact ih h
    · rw [if_neg hc] at h
      cases hpieces : splitAtChar sep rest with
      | nil => exact absurd hpieces (splitAtChar_ne_nil sep rest)
      | cons first pieces =>
        rw [hpieces] at h ih
        rcases List.mem_cons.mp h with rfl | h
        · rw [List.mem_cons, not_or]
          exact ⟨Ne.symm hc, ih List.mem_cons_self⟩
        · exact ih (List.mem_cons_of_mem _ h)

/-- An id falls into the escaped parts of its key. -/
theorem TypeKey.splitAtChar_id (key : TypeKey) : splitAtChar '/' key.id.toList =
    [(Name.escape key.repository).toList, (Name.escape key.basicType).toList, (Name.escape key.extension).toList,
      (Name.escape key.systemRelease).toList, (Name.escape key.applicationRelease).toList] := by
  have hslash : "/".toList = ['/'] := by decide
  rw [TypeKey.id_eq]
  simp only [String.toList_append, hslash, List.append_assoc, List.singleton_append]
  rw [splitAtChar_append (Name.slash_not_mem_escape _), splitAtChar_append (Name.slash_not_mem_escape _),
    splitAtChar_append (Name.slash_not_mem_escape _), splitAtChar_append (Name.slash_not_mem_escape _),
    splitAtChar_none (Name.slash_not_mem_escape _)]

/-- A key is found again from its id. -/
theorem TypeKey.ofId?_id {key : TypeKey} (hr : key.repository ≠ "") (hb : key.basicType ≠ "")
    (hm : ∀ p ∈ key.parts, Name.Markless p) : TypeKey.ofId? key.id = some key := by
  have hsplit := TypeKey.splitAtChar_id key
  obtain ⟨repository, basicType, extension, systemRelease, applicationRelease⟩ := key
  simp only [TypeKey.parts, List.forall_mem_cons] at hm
  obtain ⟨h1, h2, h3, h4, h5, -⟩ := hm
  simp only at hr hb hsplit
  have hempty : ∀ {name : String}, name ≠ "" → (Name.escape name).toList.isEmpty = false := fun h => by
    have := Name.escape_ne_empty h
    simpa using this
  have hback : ∀ {name : String}, Name.Markless name →
      String.ofList (Name.unescapeChars (Name.escape name).toList) = name := fun h => Name.unescape_escape h
  simp only [TypeKey.ofId?, hsplit, hempty hr, hempty hb, Bool.or_self, Bool.false_eq_true, if_false, hback h1,
    hback h2, hback h3, hback h4, hback h5]

/-- Only the id of a key with a repository and a basic type is that of a key. -/
theorem TypeKey.identified_of_ofId? {key key' : TypeKey} (h : TypeKey.ofId? key.id = some key') :
    key.repository ≠ "" ∧ key.basicType ≠ "" := by
  have hempty : (Name.escape "").toList.isEmpty = true := by decide
  simp only [TypeKey.ofId?, TypeKey.splitAtChar_id] at h
  split at h
  · cases h
  rename_i hfilled
  constructor
  · intro he
    rw [he, hempty] at hfilled
    exact hfilled rfl
  · intro he
    rw [he, hempty, Bool.or_true] at hfilled
    exact hfilled rfl

/-- An id that is read is the id of what is read. -/
theorem TypeKey.id_of_ofId? {s : String} {key : TypeKey} (h : TypeKey.ofId? s = some key) : key.id = s := by
  have hjoined := joined_splitAtChar '/' s.toList
  have hback : ∀ piece ∈ splitAtChar '/' s.toList,
      Name.escape (String.ofList (Name.unescapeChars piece)) = String.ofList piece := by
    intro piece hpiece
    rw [Name.escape, String.toList_ofList, Name.escapeChars_unescapeChars (not_mem_splitAtChar hpiece)]
  unfold TypeKey.ofId? at h
  split at h
  · rename_i repository basicType extension systemRelease applicationRelease hsplit
    rw [hsplit] at hjoined hback
    simp only [List.forall_mem_cons] at hback
    obtain ⟨h1, h2, h3, h4, h5, -⟩ := hback
    split at h
    · cases h
    · cases h
      rw [TypeKey.id_eq, h1, h2, h3, h4, h5, ← String.toList_inj, ← hjoined]
      simp [List.intercalate_cons_cons]
  · cases h

theorem TypeKey.ofId?_id_iff {key : TypeKey} : TypeKey.ofId? key.id = some key ↔
    key.repository ≠ "" ∧ key.basicType ≠ "" ∧ ∀ p ∈ key.parts, Name.Markless p := by
  constructor
  · intro h
    obtain ⟨hr, hb⟩ := TypeKey.identified_of_ofId? h
    have hback : ∀ p : String, String.ofList (Name.unescapeChars (Name.escape p).toList) = p → Name.Markless p := by
      intro p hp
      exact Name.unescape_escape_iff.mp hp
    simp only [TypeKey.ofId?, TypeKey.splitAtChar_id] at h
    split at h
    · cases h
    · rw [Option.some.injEq, TypeKey.mk.injEq] at h
      obtain ⟨h1, h2, h3, h4, h5⟩ := h
      refine ⟨hr, hb, ?_⟩
      simp only [TypeKey.parts, List.forall_mem_cons]
      exact ⟨hback _ h1, hback _ h2, hback _ h3, hback _ h4, hback _ h5, fun p hp => absurd hp List.not_mem_nil⟩
  · intro h
    exact TypeKey.ofId?_id h.1 h.2.1 h.2.2

/-! ## Keys of segment types -/

section

variable {sep : Char} {front front' back back' : List Char}

/-- What stands around a separator that neither front holds. -/
theorem append_cons_inj_of_front (h : sep ∉ front) (h' : sep ∉ front') :
    front ++ sep :: back = front' ++ sep :: back' ↔ front = front' ∧ back = back' := by
  induction front generalizing front' with
  | nil =>
    cases front' with
    | nil => simp
    | cons d rest' =>
      simp only [List.mem_cons, not_or] at h'
      simp [h'.1]
  | cons c rest ih =>
    simp only [List.mem_cons, not_or] at h
    cases front' with
    | nil => simp [Ne.symm h.1]
    | cons d rest' =>
      simp only [List.mem_cons, not_or] at h'
      simp only [List.cons_append, List.cons.injEq, ih h.2 h'.2, and_assoc]

theorem append_cons_inj_of_back (h : sep ∉ back) (h' : sep ∉ back') :
    front ++ sep :: back = front' ++ sep :: back' ↔ front = front' ∧ back = back' := by
  rw [← List.reverse_inj]
  simp only [List.reverse_append, List.reverse_cons, List.append_assoc, List.singleton_append]
  rw [append_cons_inj_of_front (mt List.mem_reverse.mp h) (mt List.mem_reverse.mp h'), List.reverse_inj, List.reverse_inj,
    and_comm]

end

namespace TypeKey

theorem segmentKey_chars (k : TypeKey) (t : String) : (k.segmentKey t).toList =
    (Name.escape k.repository).toList ++ '/' :: ((Name.escape k.basicType).toList ++ '/' ::
      ((Name.escape k.extension).toList ++ '/' :: ((Name.escape k.systemRelease).toList ++ '/' ::
        (Name.escape k.applicationRelease ++ ":" ++ t).toList))) := by
  have hslash : "/".toList = ['/'] := by decide
  simp only [segmentKey, id_eq, String.toList_append, hslash, List.append_assoc,
    List.cons_append, List.nil_append]

/-- Up to the last part an id is told from its key's text, behind it the id, the colon and the segment type
are one text. -/
theorem segmentKey_eq_iff {k k' : TypeKey} {t t' : String} : k.segmentKey t = k'.segmentKey t' ↔
    k.parts.dropLast.map Name.escape = k'.parts.dropLast.map Name.escape ∧
      Name.escape k.applicationRelease ++ ":" ++ t = Name.escape k'.applicationRelease ++ ":" ++ t' := by
  have hslash := Name.slash_not_mem_escape
  rw [← String.toList_inj, segmentKey_chars, segmentKey_chars, append_cons_inj_of_front (hslash _) (hslash _),
    append_cons_inj_of_front (hslash _) (hslash _), append_cons_inj_of_front (hslash _) (hslash _),
    append_cons_inj_of_front (hslash _) (hslash _)]
  simp only [String.toList_inj, parts, List.dropLast_cons_cons, List.dropLast_singleton, List.map_cons, List.map_nil,
    List.cons.injEq, and_true, and_assoc]

/-- The colon of a segment key is told where one side of it has no other. -/
theorem colon_told {a a' t t' : String}
    (h : (':' ∉ a.toList ∧ ':' ∉ a'.toList) ∨ (':' ∉ t.toList ∧ ':' ∉ t'.toList)) :
    Name.escape a ++ ":" ++ t = Name.escape a' ++ ":" ++ t' ↔ Name.escape a = Name.escape a' ∧ t = t' := by
  have hcolon : ":".toList = [':'] := by decide
  have hchars : Name.escape a ++ ":" ++ t = Name.escape a' ++ ":" ++ t' ↔
      (Name.escape a).toList ++ ':' :: t.toList = (Name.escape a').toList ++ ':' :: t'.toList := by
    rw [← String.toList_inj]
    simp only [String.toList_append, hcolon, List.append_assoc, List.singleton_append]
  have hparts : Name.escape a = Name.escape a' ∧ t = t' ↔
      (Name.escape a).toList = (Name.escape a').toList ∧ t.toList = t'.toList := by
    rw [String.toList_inj, String.toList_inj]
  rw [hchars, hparts]
  rcases h with ⟨ha, ha'⟩ | ⟨ht, ht'⟩
  · exact append_cons_inj_of_front (mt Name.colon_mem_escape.mp ha) (mt Name.colon_mem_escape.mp ha')
  · exact append_cons_inj_of_back ht ht'

theorem segmentKey_inj_of_markless {k k' : TypeKey} {t t' : String} (hk : ∀ p ∈ k.parts, Name.Markless p)
    (hk' : ∀ p ∈ k'.parts, Name.Markless p)
    (hcolon : (':' ∉ k.applicationRelease.toList ∧ ':' ∉ k'.applicationRelease.toList) ∨
      (':' ∉ t.toList ∧ ':' ∉ t'.toList)) :
    k.segmentKey t = k'.segmentKey t' ↔ k = k' ∧ t = t' := by
  constructor
  · intro h
    obtain ⟨hfront, hback⟩ := segmentKey_eq_iff.mp h
    obtain ⟨hrelease, ht⟩ := (colon_told hcolon).mp hback
    refine ⟨?_, ht⟩
    obtain ⟨repository, basicType, extension, systemRelease, applicationRelease⟩ := k
    obtain ⟨repository', basicType', extension', systemRelease', applicationRelease'⟩ := k'
    simp only [parts, List.forall_mem_cons] at hk hk'
    simp only [parts, List.dropLast_cons_cons, List.dropLast_singleton, List.map_cons, List.map_nil,
      List.cons.injEq, and_true] at hfront hrelease
    obtain ⟨h1, h2, h3, h4, h5, -⟩ := hk
    obtain ⟨h1', h2', h3', h4', h5', -⟩ := hk'
    obtain ⟨e1, e2, e3, e4⟩ := hfront
    rw [Name.escape_inj h1 h1' e1, Name.escape_inj h2 h2' e2, Name.escape_inj h3 h3' e3, Name.escape_inj h4 h4' e4,
      Name.escape_inj h5 h5' hrelease]
  · rintro ⟨rfl, rfl⟩
    rfl

end TypeKey

end DocWire
