/-
  DocWire.Proofs.Xml.Header — the header of a document comes back from its attributes.
-/

import DocWire.Proofs.Document.Header
import DocWire.Proofs.Xml.Elements

namespace DocWire.Xml

open Markup (Head Simple readAs)

theorem header_names (f : HeaderField) : Simple f.attributeName ∧ f.attributeName ≠ "parent" ∧
    f.attributeName ≠ "document" ∧ f.attributeName ≠ creationDateAttribute ∧ f.attributeName ≠ creationTimeAttribute := by
  have hall : ∀ f ∈ HeaderField.all, Simple f.attributeName ∧ f.attributeName ≠ "parent" ∧
      f.attributeName ≠ "document" ∧ f.attributeName ≠ creationDateAttribute ∧
      f.attributeName ≠ creationTimeAttribute := by decide +kernel
  exact hall f f.mem_all

theorem creation_names : Simple creationDateAttribute ∧ Simple creationTimeAttribute := by decide

theorem simple_headerAttributes {advice : Attributes} (ha : Advice advice) (d : Document) :
    ∀ a ∈ advice ++ headerAttributes d, Simple a.1 := by
  intro a h
  rcases List.mem_append.mp h with h | h
  · exact ha.simple h
  rcases List.mem_append.mp h with h | h
  · obtain ⟨e, -, rfl⟩ := List.mem_map.mp h
    exact (header_names e.1).1
  · rcases List.mem_cons.mp h with rfl | h
    · exact creation_names.1
    · rw [List.mem_singleton.mp h]
      exact creation_names.2

theorem nodup_headerAttributes {advice : Attributes} (ha : Advice advice) (hadvice : (advice.map (·.1)).Nodup)
    (d : Document) : ((advice ++ headerAttributes d).map (·.1)).Nodup := by
  have hnames : (headerAttributes d).map (·.1) = (d.header.entries.map Prod.fst).map HeaderField.attributeName ++
      [creationDateAttribute, creationTimeAttribute] := by
    rw [headerAttributes, List.map_append, List.map_map, List.map_map]
    rfl
  have hfields : ((d.header.entries.map Prod.fst).map HeaderField.attributeName).Nodup :=
    (d.header.entries_sublist.nodup HeaderField.all_nodup).map HeaderField.attributeName_injective
  have hcreation : ∀ a ∈ [creationDateAttribute, creationTimeAttribute], a ≠ "parent" ∧ a ≠ "document" := by decide
  rw [List.map_append, hnames]
  refine List.nodup_append.mpr ⟨hadvice, List.nodup_append.mpr ⟨hfields, by decide, ?_⟩, ?_⟩
  · rintro a hm b hb rfl
    obtain ⟨f, -, rfl⟩ := List.mem_map.mp hm
    obtain ⟨-, -, -, hdate, htime⟩ := header_names f
    rcases List.mem_cons.mp hb with he | hb
    · exact hdate he
    · exact htime (List.mem_singleton.mp hb)
  · rintro a hm b hb rfl
    obtain ⟨p, hp, rfl⟩ := List.mem_map.mp hm
    rcases List.mem_append.mp hb with hb | hb
    · obtain ⟨f, -, he⟩ := List.mem_map.mp hb
      obtain ⟨-, hparent, hdocument, -⟩ := header_names f
      exact (ha p hp).elim (fun h => hparent (he.trans h)) (fun h => hdocument (he.trans h))
    · exact (ha p hp).elim (hcreation _ hb).1 (hcreation _ hb).2

/-- The attributes of a document tell its header and its creation stamp. -/
theorem lookup_headerAttributes (d : Document) :
    (∀ f, (headerAttributes d).lookup f.attributeName = d.header.get f) ∧
      (headerAttributes d).lookup creationDateAttribute = some d.creation.date.compact ∧
      (headerAttributes d).lookup creationTimeAttribute = some d.creation.time.compact :=
  d.header.lookup_stamped HeaderField.attributeName_injective (fun f => (header_names f).2.2.2) (by decide) _ _

/-- What an attribute does to the header. -/
def applyHeader (h : Head) (d : Document) (a : Markup.Attribute) : Except XmlError Document :=
  if a.ns.isSome then .error (unexpectedAttribute h a)
  else if isAdvisory a || a.name == creationDateAttribute || a.name == creationTimeAttribute then .ok d
  else match HeaderField.ofAttribute? a.name with
    | some f => .ok (d.setHeader f a.value)
    | none => .error (unexpectedAttribute h a)

theorem applyHeader_passed {h : Head} {d : Document} {a : String × String}
    (ha : (a.1 = "parent" ∨ a.1 = "document") ∨ a.1 = creationDateAttribute ∨ a.1 = creationTimeAttribute) :
    applyHeader h d ⟨none, a.1, a.2⟩ = .ok d := by
  have hpass : (isAdvisory ⟨none, a.1, a.2⟩ || a.1 == creationDateAttribute || a.1 == creationTimeAttribute) = true := by
    rw [Bool.or_eq_true, Bool.or_eq_true, isAdvisory_iff, beq_iff_eq, beq_iff_eq, or_assoc]
    exact ha
  simp only [applyHeader, Option.isSome_none, Bool.false_eq_true, if_false, hpass, if_true]

theorem applyHeader_field {h : Head} {d : Document} (f : HeaderField) (value : String) :
    applyHeader h d ⟨none, f.attributeName, value⟩ = .ok (d.setHeader f value) := by
  obtain ⟨-, hp, hdoc, hdate, htime⟩ := header_names f
  have hpass : (isAdvisory ⟨none, f.attributeName, value⟩ || f.attributeName == creationDateAttribute ||
      f.attributeName == creationTimeAttribute) = false := by
    rw [Bool.eq_false_iff, Ne, Bool.or_eq_true, Bool.or_eq_true, isAdvisory_iff, beq_iff_eq, beq_iff_eq]
    simp only [hp, hdoc, hdate, htime, or_self, not_false_iff]
  simp only [applyHeader, Option.isSome_none, Bool.false_eq_true, if_false, hpass, HeaderField.ofAttribute?_attributeName]

theorem foldlM_passed {attrs : Attributes} (h : Head)
    (hall : ∀ a ∈ attrs, (a.1 = "parent" ∨ a.1 = "document") ∨ a.1 = creationDateAttribute ∨
      a.1 = creationTimeAttribute) (d : Document) : (readAs attrs).foldlM (applyHeader h) d = .ok d := by
  refine Outcome.foldlM_stays fun b hb => ?_
  obtain ⟨a, hm, rfl⟩ := List.mem_map.mp hb
  exact applyHeader_passed (hall a hm)

theorem foldlM_header (h : Head) (entries : List (HeaderField × String)) (d : Document) :
    (readAs (entries.map fun (f, value) => (f.attributeName, value))).foldlM (applyHeader h) d =
      .ok { d with header := d.header.setAll entries } := by
  induction entries generalizing d with
  | nil => rfl
  | cons e rest ih =>
    rw [List.map_cons, readAs, List.map_cons, List.foldlM_cons, applyHeader_field]
    exact ih (d.setHeader e.1 e.2)

/-- Of the attributes of a document, the header fields are set and all else is passed over. -/
theorem readHeader_written {advice : Attributes} (ha : Advice advice) {h : Head} {d : Document}
    (he : h.attributes = readAs (advice ++ headerAttributes d)) (start : Document) :
    readHeader h start = .ok { start with header := start.header.setAll d.header.entries } := by
  have hcreation : ∀ a ∈ [(creationDateAttribute, d.creation.date.compact), (creationTimeAttribute,
      d.creation.time.compact)], (a.1 = "parent" ∨ a.1 = "document") ∨ a.1 = creationDateAttribute ∨
        a.1 = creationTimeAttribute := by
    intro a h
    rcases List.mem_cons.mp h with rfl | h
    · exact .inr (.inl rfl)
    · rw [List.mem_singleton.mp h]
      exact .inr (.inr rfl)
  show h.attributes.foldlM (applyHeader h) start = _
  rw [he, headerAttributes, readAs, List.map_append, List.map_append, List.foldlM_append]
  show (readAs advice).foldlM (applyHeader h) start >>= _ = _
  rw [foldlM_passed h (fun a hm => .inl (ha a hm))]
  show List.foldlM (applyHeader h) start _ = _
  rw [List.foldlM_append]
  show (readAs (d.header.entries.map _)).foldlM (applyHeader h) start >>= _ = _
  rw [foldlM_header]
  exact foldlM_passed h hcreation _

end DocWire.Xml
