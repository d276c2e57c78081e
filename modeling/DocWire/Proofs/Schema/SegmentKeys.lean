/-
  DocWire.Proofs.Schema.SegmentKeys — what a registry finds under a segment key.

  A registry looks through its message types from the last one on, so what it finds under a key is a segment
  type of the last message type that has the key (`Latest`). Message types have distinct keys, but that is all
  that is checked, and it does not make segment keys distinct:
  - a slash in a part of a key becomes `_-`, so `A/B` and `A_-B` come to one id (`sameMarkup`);
  - nothing tells which colon stands before the segment type, so `B:C` below the release `1` and `C` below the
    release `1:B` come to one key (`sameText`).
  A segment type of the earlier message type is then not found under its own key (`segments_shadowed`).

  `segments_found`: every segment type is found under its key exactly where no two segment types that differ
  share one; when two share one is told from their message keys and names; and none do in a registry of
  `PlainKeys`, where neither of the two ways is open.
-/

import DocWire.Proofs.Schema.Key
import DocWire.Proofs.Schema.Registry

namespace DocWire

theorem MessageType.Resolved.segment?_eq_some {m : MessageType} (h : m.Resolved) {key : String} {t : SegmentType} :
    m.segment? key = some t ↔ t ∈ m.allSegments ∧ t.key = key := by
  constructor
  · intro ht
    exact ⟨List.mem_of_find?_eq_some ht, Lookup.name_of_find? ht⟩
  · rintro ⟨ht, rfl⟩
    exact h.segment?_key ht

namespace Registry

/-- `t` is a segment type of the message type `m` of the registry. -/
def Holds (r : Registry) (m : MessageType) (t : SegmentType) : Prop := m ∈ r.messageTypes ∧ t ∈ m.allSegments

/-- `t` has the key, in the last message type that has it. -/
def Latest (r : Registry) (key : String) (t : SegmentType) : Prop :=
  ∃ front m rest, r.messageTypes = front ++ m :: rest ∧ t ∈ m.allSegments ∧ t.key = key ∧
    ∀ m' ∈ rest, ∀ u ∈ m'.allSegments, u.key ≠ key

/-- No part of a message key holds `_-`, and colons stand in application releases only or in segment types only. -/
structure PlainKeys (r : Registry) : Prop where
  markless : ∀ m ∈ r.messageTypes, ∀ p ∈ m.key.parts, Name.Markless p
  colonless : (∀ m ∈ r.messageTypes, ':' ∉ m.key.applicationRelease.toList) ∨
    ∀ m t, r.Holds m t → ':' ∉ t.name.toList

variable {r : Registry} {key : String} {m m' : MessageType} {t t' : SegmentType}

theorem segment?_eq_none : r.segment? key = none ↔ ∀ m t, r.Holds m t → t.key ≠ key := by
  simp only [segment?, List.findSome?_eq_none_iff, List.mem_reverse, MessageType.segment?, List.find?_eq_none,
    beq_iff_eq]
  exact ⟨fun h m t ht => h m ht.1 t ht.2, fun h m hm t ht => h m t ⟨hm, ht⟩⟩

section Compiled

variable {schema : Definition} (hr : compile schema = .ok r)
include hr

theorem segment?_eq_some : r.segment? key = some t ↔ r.Latest key t := by
  rw [segment?, List.findSome?_eq_some_iff]
  constructor
  · rintro ⟨behind, m, before, hsplit, ht, hnone⟩
    have htypes : r.messageTypes = before.reverse ++ m :: behind.reverse := by
      rw [← List.reverse_reverse r.messageTypes, hsplit]
      simp
    have hm : m ∈ r.messageTypes := by
      rw [htypes]
      exact List.mem_append_right _ List.mem_cons_self
    obtain ⟨hmem, hkey⟩ := (resolved hr hm).segment?_eq_some.mp ht
    refine ⟨before.reverse, m, behind.reverse, htypes, hmem, hkey, fun m' hm' u hu => ?_⟩
    have hu' := List.find?_eq_none.mp (hnone m' (List.mem_reverse.mp hm')) u hu
    simpa using hu'
  · rintro ⟨front, m, rest, htypes, hmem, hkey, hnone⟩
    have hm : m ∈ r.messageTypes := by
      rw [htypes]
      exact List.mem_append_right _ List.mem_cons_self
    refine ⟨rest.reverse, m, front.reverse, ?_, (resolved hr hm).segment?_eq_some.mpr ⟨hmem, hkey⟩, fun m' hm' => ?_⟩
    · rw [htypes]
      simp
    · refine List.find?_eq_none.mpr fun u hu => ?_
      simpa using hnone m' (List.mem_reverse.mp hm') u hu

/-- Something is found under every segment key: a segment type that has the key, if not the only one. -/
theorem exists_latest (h : r.Holds m t) : ∃ found, r.segment? t.key = some found ∧ r.Latest t.key found := by
  cases hfound : r.segment? t.key with
  | none => exact absurd rfl (segment?_eq_none.mp hfound m t h)
  | some found => exact ⟨found, rfl, (segment?_eq_some hr).mp hfound⟩

/-- The key is that of a message type and a name, which tell the segment type. -/
theorem Holds.key_eq (h : r.Holds m t) : t.key = m.key.segmentKey t.name := (resolved hr h.1).keys t h.2

theorem Holds.eq_of_key (h : r.Holds m t) (h' : r.Holds m' t') (hkey : m.key = m'.key) (hname : t.name = t'.name) :
    m = m' ∧ t = t' := by
  have hm : m = m' := List.inj_on_of_nodup_map (keys_nodup hr) h.1 h'.1 hkey
  subst hm
  exact ⟨rfl, List.inj_on_of_nodup_map (resolved hr h.1).names h.2 h'.2 hname⟩

theorem found_iff_unshared : (∀ m t, r.Holds m t → r.segment? t.key = some t) ↔
    ∀ m t m' t', r.Holds m t → r.Holds m' t' → t.key = t'.key → t = t' := by
  constructor
  · intro hfound m t m' t' h h' hkey
    have ht := hfound m t h
    rw [hkey, hfound m' t' h'] at ht
    exact (Option.some.inj ht).symm
  · intro hunshared m t h
    obtain ⟨found, hfound, front, m', rest, htypes, hmem, hkey, -⟩ := exists_latest hr h
    have hm' : m' ∈ r.messageTypes := by
      rw [htypes]
      exact List.mem_append_right _ List.mem_cons_self
    rw [hfound, hunshared m' found m t ⟨hm', hmem⟩ h hkey]

theorem PlainKeys.eq_of_shared (hplain : r.PlainKeys) (h : r.Holds m t) (h' : r.Holds m' t') (hkey : t.key = t'.key) :
    m = m' ∧ t = t' := by
  rw [h.key_eq hr, h'.key_eq hr, TypeKey.segmentKey_inj_of_markless (hplain.markless m h.1) (hplain.markless m' h'.1)
    (hplain.colonless.imp (fun hc => ⟨hc m h.1, hc m' h'.1⟩) fun hc => ⟨hc m t h, hc m' t' h'⟩)] at hkey
  exact h.eq_of_key hr h' hkey.1 hkey.2

end Compiled

theorem segments_found {schema : Definition} (hr : compile schema = .ok r) :
    (∀ key t, r.segment? key = some t ↔ r.Latest key t) ∧
    (∀ m t, r.Holds m t → ∃ found, r.segment? t.key = some found ∧ r.Latest t.key found) ∧
    ((∀ m t, r.Holds m t → r.segment? t.key = some t) ↔
      ∀ m t m' t', r.Holds m t → r.Holds m' t' → t.key = t'.key → t = t') ∧
    (∀ m t m' t', r.Holds m t → r.Holds m' t' → (t.key = t'.key ↔
      m.key.parts.dropLast.map Name.escape = m'.key.parts.dropLast.map Name.escape ∧
        Name.escape m.key.applicationRelease ++ ":" ++ t.name =
          Name.escape m'.key.applicationRelease ++ ":" ++ t'.name)) ∧
    (r.PlainKeys → ∀ m t, r.Holds m t → r.segment? t.key = some t ∧
      ∀ m' t', r.Holds m' t' → t.key = t'.key → m = m' ∧ t = t') := by
  refine ⟨fun key t => segment?_eq_some hr, fun m t h => exists_latest hr h, found_iff_unshared hr,
    fun m t m' t' h h' => ?_, fun hplain m t h => ⟨?_, fun m' t' h' => hplain.eq_of_shared hr h h'⟩⟩
  · rw [h.key_eq hr, h'.key_eq hr]
    exact TypeKey.segmentKey_eq_iff
  · exact (found_iff_unshared hr).mpr (fun m t m' t' h h' hkey => (hplain.eq_of_shared hr h h' hkey).2) m t h

/-! ## Two message types -/

/-- A message type of one segment type, with one field. -/
def filing (key : TypeKey) (type field : String) : MessageDef where
  key := key
  root := [{ segmentType := type }]
  segments := [{ segmentType := type, fields := [{ name := field, type := .int4 }] }]

/-- A message type in two releases. -/
def releases : Definition where
  messageTypes := [filing ⟨"R", "/BIZ/FILE", "", "", "1"⟩ "B:C" "OLD", filing ⟨"R", "/BIZ/FILE", "", "", "2"⟩ "B:C" "NEW"]

def released : Registry := (compile releases).toOption.get rfl

theorem releases_compiled : compile releases = .ok released := rfl

theorem segments_found_releases : compile releases = .ok released ∧ released.PlainKeys ∧
    released.messageTypes.length = 2 ∧
    ∀ m t, released.Holds m t → released.segment? t.key = some t ∧
      ∀ m' t', released.Holds m' t' → t.key = t'.key → m = m' ∧ t = t' := by
  have hplain : released.PlainKeys := ⟨by decide +kernel, .inl (by decide +kernel)⟩
  exact ⟨releases_compiled, hplain, rfl, (segments_found releases_compiled).2.2.2.2 hplain⟩

/-- Two basic types with one markup form. -/
def sameMarkup : Definition where
  messageTypes := [filing ⟨"R", "A/B", "", "", ""⟩ "HEAD" "OLD", filing ⟨"R", "A_-B", "", "", ""⟩ "HEAD" "NEW"]

/-- Releases and segment types that are one text with a colon between them. -/
def sameText : Definition where
  messageTypes := [filing ⟨"R", "T", "", "", "1"⟩ "B:C" "OLD", filing ⟨"R", "T", "", "", "1:B"⟩ "C" "NEW"]

/-- Either way a segment type of the first message type is not found: one of the second has its key. -/
theorem segments_shadowed :
    (∃ r, compile sameMarkup = .ok r ∧ ∃ m ∈ r.messageTypes, ∃ t ∈ m.allSegments,
      t.key = "R/A_-B///:HEAD" ∧ r.segment? t.key ≠ some t) ∧
    ∃ r, compile sameText = .ok r ∧ ∃ m ∈ r.messageTypes, ∃ t ∈ m.allSegments,
      t.key = "R/T///1:B:C" ∧ r.segment? t.key ≠ some t :=
  ⟨⟨(compile sameMarkup).toOption.get rfl, rfl, by decide +kernel⟩,
    (compile sameText).toOption.get rfl, rfl, by decide +kernel⟩

end Registry

end DocWire
