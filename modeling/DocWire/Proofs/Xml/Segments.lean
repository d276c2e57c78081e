/-
  DocWire.Proofs.Xml.Segments — the segments of a document come back from XML.

  The writer follows the tree of a document, the reader follows elements and makes segments as it goes. Both
  are followed at once, tree by tree: what is written below a segment is plain markup
  (`encodeSegments_plain`), and reading it where the trees may be made makes them (`readSegments_encoded`).
-/

import DocWire.Proofs.Document.Rebuild
import DocWire.Proofs.Xml.Elements
import DocWire.Proofs.Xml.Paths

namespace DocWire

/-- A message type that XML can carry: its parts stand in a namespace, and its names are names there. -/
structure MessageType.XmlSafe (m : MessageType) : Prop where
  identified : m.key.repository ≠ "" ∧ m.key.basicType ≠ ""
  parts : ∀ p ∈ m.key.parts, Name.Markless p ∧ ReferenceFree p
  segments : ∀ t ∈ m.segments, DocWire.XmlSafe t.name
  fields : ∀ t ∈ m.segments, ∀ decl ∈ t.fields, XmlSafeField decl.name

instance MessageType.decidableXmlSafe (m : MessageType) : Decidable m.XmlSafe :=
  decidable_of_iff ((m.key.repository ≠ "" ∧ m.key.basicType ≠ "") ∧
      (∀ p ∈ m.key.parts, Name.Markless p ∧ ReferenceFree p) ∧ (∀ t ∈ m.segments, DocWire.XmlSafe t.name) ∧
      ∀ t ∈ m.segments, ∀ decl ∈ t.fields, XmlSafeField decl.name)
    ⟨fun h => ⟨h.1, h.2.1, h.2.2.1, h.2.2.2⟩, fun h => ⟨h.identified, h.parts, h.segments, h.fields⟩⟩

/-- A segment whose names come back where its attributes are told apart: that of its type, and those of the fields that
are set, hold no `_-`. -/
structure Segment.Readable (s : Segment) : Prop where
  type : Name.Markless s.type.name
  fields : ∀ e ∈ s.entries, Name.Markless e.1.name

namespace Xml

open Markup (AllPlain Element ElementText Head Plain Scope Simple Written elementIn elementsIn readAs)

variable {m : MessageType} {scope : Scope} {pre ns docPath : String}

theorem entries_safe (hsafe : m.XmlSafe) (hm : m.Resolved) {s : Segment} (ht : s.type ∈ m.allSegments) :
    (∀ e ∈ s.entries, XmlSafeField e.1.name) ∧ (s.entries.map (·.1.name)).Nodup := by
  have hsub := Segment.entries_sublist (s := s)
  refine ⟨fun e he => ?_, Segment.entries_nodup (hm.fields s.type ht)⟩
  have hdecl : e.1 ∈ s.type.fields := hsub.subset (List.mem_map.mpr ⟨e, he, rfl⟩)
  rcases List.mem_cons.mp ht with hroot | ht
  · rw [hroot, hm.rootFields] at hdecl
    cases hdecl
  · exact hsafe.fields s.type ht e.1 hdecl

theorem inSlot_mem (hm : m.Resolved) {type : SegmentType} (ht : type ∈ m.allSegments) {level : Nat} {t : Tree Segment}
    (h : Tree.InSlot m type level t) : t.value.type ∈ m.segments := by
  obtain ⟨-, slot, hslot, -, hk⟩ := h
  obtain ⟨u, hu, -, hkey, -⟩ := hm.childOf?_slot ht hslot
  rw [hkey, hm.segment?_key (List.mem_cons_of_mem _ hu), Option.some_inj] at hk
  exact hk ▸ hu

mutual

theorem readable_of_fits (hsafe : m.XmlSafe) (hm : m.Resolved) : ∀ {t : Tree Segment}, t.value.type ∈ m.segments →
    t.Fits m → ∀ s ∈ t.preorder, s.Readable
  | .node own children, htype, hfits, s, hs => by
    obtain ⟨hown, -, -, hall⟩ := hfits
    rcases List.mem_cons.mp hs with rfl | hs
    · refine ⟨(hsafe.segments _ htype).markless, ?_⟩
      intro e he
      exact ((entries_safe hsafe hm hown).1 e he).safe.markless
    · exact readable_of_allFit hsafe hm hown hall s hs

theorem readable_of_allFit (hsafe : m.XmlSafe) (hm : m.Resolved) : ∀ {ts : List (Tree Segment)} {type : SegmentType}
    {level : Nat}, type ∈ m.allSegments → Tree.AllFit m type level ts → ∀ s ∈ Tree.preorderAll ts, s.Readable
  | [], _, _, _, _, s, hs => by cases hs
  | t :: rest, type, level, htype, ⟨hslot, hfits, hrest⟩, s, hs => by
    rcases List.mem_append.mp hs with hs | hs
    · exact readable_of_fits hsafe hm (inSlot_mem hm htype hslot) hfits s hs
    · exact readable_of_allFit hsafe hm htype hrest s hs

end

/-! ## What is written -/

theorem encodeSegment_ok {parentPath path : String} {own : Segment} {children : List (Tree Segment)} {w : Written}
    (h : encodeSegment pre docPath parentPath path (.node own children) = .ok w) :
    ∃ below, encodeSegments pre docPath path [] children = .ok below ∧ (∀ e ∈ own.entries, Encodes e) ∧
      w = .mk (pre ++ ":" ++ Name.escape own.type.name)
        ([("parent", parentPath), ("document", docPath)] ++ own.entries.map attributeOf) (wrapped path below) := by
  unfold encodeSegment at h
  split at h
  · cases h
  rename_i fields hf
  obtain ⟨below, hbelow, rfl⟩ := Outcome.map_eq_ok.mp h
  obtain ⟨rfl, henc⟩ := fieldAttributes_ok hf
  exact ⟨below, hbelow, henc, rfl⟩

theorem encodeSegments_cons {path : String} {before : List String} {t : Tree Segment} {rest : List (Tree Segment)}
    {ws : List Written} (h : encodeSegments pre docPath path before (t :: rest) = .ok ws) :
    ∃ e es, encodeSegment pre docPath path (segmentPath path t.value.type.name (before.count t.value.type.name)) t = .ok e ∧
      encodeSegments pre docPath path (t.value.type.name :: before) rest = .ok es ∧ ws = e :: es := by
  unfold encodeSegments at h
  simp only at h
  split at h
  · cases h
  rename_i e he
  obtain ⟨es, hes, rfl⟩ := Outcome.map_eq_ok.mp h
  exact ⟨e, es, he, hes, rfl⟩

theorem encodeRoot_ok {own : Segment} {children : List (Tree Segment)} {w : Written}
    (h : encodeRoot pre docPath (.node own children) = .ok w) :
    ∃ below, encodeSegments pre docPath (childPath docPath "rootSegment") [] children = .ok below ∧
      w = .mk "rootSegment" ([("parent", docPath), ("document", docPath)] ++ own.entries.map attributeOf)
        (wrapped (childPath docPath "rootSegment") below) := by
  simp only [encodeRoot] at h
  split at h
  · cases h
  rename_i fields hf
  obtain ⟨below, hbelow, rfl⟩ := Outcome.map_eq_ok.mp h
  obtain ⟨rfl, -⟩ := fieldAttributes_ok hf
  exact ⟨below, hbelow, rfl⟩

theorem bare_names : (ElementText "segmentChildren" ∧ ':' ∉ "segmentChildren".toList) ∧
    (ElementText "rootSegment" ∧ ':' ∉ "rootSegment".toList) ∧
    (ElementText "document" ∧ ':' ∉ "document".toList) := by decide

theorem wrapped_plain {path : String} {below : List Written} (h : AllPlain scope below) :
    AllPlain scope (wrapped path below) := by
  rw [wrapped]
  split
  · trivial
  · have hs : ∀ a ∈ [("parent", path)], Simple a.1 := fun a => (advice_parent path).simple
    exact ⟨plain_bare bare_names.1.1 bare_names.1.2 hs (List.nodup_singleton _) h, trivial⟩

/-- The markup below a segment holds only names that resolve and attributes that are told apart. -/
theorem encodeSegments_plain (hb : Bound scope pre ns) (hsafe : m.XmlSafe) (hm : m.Resolved) :
    ∀ (ts : List (Tree Segment)) {type : SegmentType} {level : Nat} {path : String} {before : List String}
      {ws : List Written}, type ∈ m.allSegments → Tree.AllFit m type level ts →
      encodeSegments pre docPath path before ts = .ok ws → AllPlain scope ws
  | [], _, _, _, _, ws, _, _, h => by
    simp only [encodeSegments, Except.ok.injEq] at h
    subst h
    trivial
  | .node own children :: rest, type, level, path, before, ws, htype, hfits, h => by
    obtain ⟨hslot, ⟨hown, -, -, hall⟩, hrest⟩ := hfits
    obtain ⟨e, es, he, hes, rfl⟩ := encodeSegments_cons h
    obtain ⟨below, hbelow, -, rfl⟩ := encodeSegment_ok he
    obtain ⟨hsafeEntries, hnd⟩ := entries_safe hsafe hm hown
    have hname := (hsafe.segments _ (inSlot_mem hm htype hslot)).nameText.1.unbroken
    have hadvice := advice_both path docPath
    refine ⟨plain_prefixed hb hname (simple_attributes hadvice hsafeEntries)
      (nodup_attributes hadvice (by simp) hsafeEntries hnd) (wrapped_plain ?_), ?_⟩
    · exact encodeSegments_plain hb hsafe hm children hown hall hbelow
    · exact encodeSegments_plain hb hsafe hm rest htype hrest hes

theorem plain_of_wrapped {path : String} {below : List Written} (h : AllPlain scope (wrapped path below)) :
    AllPlain scope below := by
  cases below with
  | nil => trivial
  | cons w rest =>
    obtain ⟨⟨-, -, -, -, hbelow⟩, -⟩ := h
    exact hbelow

/-! ## What is read -/

theorem readWrappers_wrapped {raw : String} (hb : Bound scope pre raw) {d : Document} {id : Nat} {path : String}
    {below : List Written} :
    readWrappers ns d id (elementsIn scope (wrapped path below)) = readSegments ns d id (elementsIn scope below) := by
  cases below with
  | nil =>
    show readWrappers ns d id [] = readSegments ns d id []
    rw [readWrappers, readSegments]
  | cons w rest =>
    have hw : elementsIn scope (wrapped path (w :: rest)) =
        [.mk ⟨none, "segmentChildren", [], readAs [("parent", path)]⟩ (elementsIn scope (w :: rest))] := by
      show [elementIn scope (.mk "segmentChildren" [("parent", path)] (w :: rest))] = _
      rw [elementIn_bare hb bare_names.1.2]
    have hcheck : checkAdvisory ⟨none, "segmentChildren", [], readAs [("parent", path)]⟩ = .ok () :=
      checkAdvisory_advice (advice_parent path) rfl
    rw [hw, readWrappers, hcheck]
    simp only [Head.isNamed, BEq.rfl, Bool.and_self, Bool.not_true, Bool.false_eq_true, if_false]
    cases readSegments ns d id (elementsIn scope (w :: rest)) with
    | error e => rfl
    | ok d' => simp only [readWrappers]

theorem readSegments_cons_iff {d d' : Document} {id : Nat} {h : Head} {children rest : List Element} :
    readSegments ns d id (.mk h children :: rest) = .ok d' ↔ inNamespace ns h = true ∧
      ∃ d₁ child filled d₂, d.addChild id (Name.unescape h.name) = .ok (d₁, child) ∧
        applyAttributes (fun d name text => d.setWire child name text) h d₁ = .ok filled ∧
        readWrappers ns filled child children = .ok d₂ ∧ readSegments ns d₂ id rest = .ok d' := by
  constructor
  · intro hok
    unfold readSegments at hok
    split at hok
    · cases hok
    rename_i hns
    split at hok
    · cases hok
    rename_i d₁ child hadd
    split at hok
    · cases hok
    rename_i filled happly
    split at hok
    · cases hok
    rename_i d₂ hbelow
    exact ⟨by simpa using hns, d₁, child, filled, d₂, hadd, happly, hbelow, hok⟩
  · rintro ⟨hns, d₁, child, filled, d₂, hadd, happly, hbelow, hok⟩
    rw [readSegments]
    simp only [hns, Bool.not_true, Bool.false_eq_true, if_false, hadd, happly, hbelow, hok]

/-- The fields of a blank segment are set from what was written of another of its type, and recovered. -/
theorem setEntries_fields {d : Document} {id : Nat} {s t : Segment} (ht : d.segment? id = some t)
    (htype : t.type = s.type) (hblank : t.fields = List.replicate s.type.fields.length none)
    (hnd : (s.type.fields.map (·.name)).Nodup) (hlen : s.fields.length = s.type.fields.length)
    (henc : ∀ e ∈ s.entries, Encodes e) :
    ∃ fields, setEntries (fun d name text => d.setWire id name text) d s.entries = .ok (d.putFields id fields) ∧
      List.Forall₂ (fun x w => Option.Rel (Coercion.Recovered x.1.format) x.2 w) (s.type.fields.zip s.fields) fields := by
  have hzip : (s.type.fields.zip s.fields).length = s.type.fields.length := by
    rw [List.length_zip, hlen, Nat.min_self]
  have hstart : d.putFields id (List.replicate (s.type.fields.zip s.fields).length none) = d := by
    rw [hzip, ← hblank, Document.putFields_self ht]
  obtain ⟨fields, hok, hall⟩ := Pairing.foldlM_fill (fun fields => d.putFields id fields)
    (fun x : FieldDecl × Option Value => x.2.map fun v => (x.1, v))
    (fun d e => (d.setWire id e.1.name (wireOf e)).mapError XmlError.model) none
    (fun x w => Option.Rel (Coercion.Recovered x.1.format) x.2 w)
    (fun x hx => by
      rw [Option.map_eq_none_iff.mp hx]
      exact .none)
    (s.type.fields.zip s.fields) (by
      intro x e before after hx he hlength
      obtain ⟨hdecl, hvalue⟩ := List.getElem?_zip_eq_some.mp hx
      obtain ⟨v, hv, rfl⟩ := Option.map_eq_some_iff.mp he
      rw [hv] at hvalue
      have hmem : (x.1, v) ∈ s.entries := Segment.mem_entries.mpr ⟨_, hdecl, hvalue⟩
      obtain ⟨v', hdecode, hrec⟩ := Coercion.decodeWire_encode (henc _ hmem)
      refine ⟨some v', by rw [hv]; exact .some hrec, ?_⟩
      have hset : (before ++ none :: after).set before.length (some v') = before ++ some v' :: after := by
        rw [List.set_append_right _ _ (Nat.le_refl _), Nat.sub_self, List.set_cons_zero]
      rw [Document.setWire, Document.changeField_putFields ht (htype ▸ hnd) (htype ▸ hdecl), FieldDecl.acceptWire,
        show Coercion.decodeWire x.1.format (wireOf (x.1, v)) = .ok (some v') from hdecode, Outcome.mapError_ok,
        Outcome.map_ok, hset, Outcome.mapError_ok])
  refine ⟨fields, ?_, hall⟩
  rw [hstart] at hok
  exact hok

/-- Reading what was written of trees makes them, wherever they may be made. -/
theorem readSegments_encoded (hb : Bound scope pre ns) (hm : m.Resolved) :
    ∀ (ts : List (Tree Segment)) {d : Document} {id : Nat} {s : Segment} {path : String} {before : List String}
      {ws : List Written}, d.schema = m → d.Ready id s ts → (∀ s ∈ Tree.preorderAll ts, s.Readable) →
      encodeSegments pre docPath path before ts = .ok ws → AllPlain scope ws →
      ∃ d', readSegments ns d id (elementsIn scope ws) = .ok d' ∧ d.Grown d' id s ts
  | [], d, id, s, path, before, ws, _, hready, _, h, _ => by
    simp only [encodeSegments, Except.ok.injEq] at h
    subst h
    exact ⟨d, by rw [elementsIn, readSegments], .nil hready.found⟩
  | .node own children :: rest, d, id, s, path, before, ws, hschema, hready, hnames, h, hplain => by
    have hm' : d.schema.Resolved := hschema ▸ hm
    have hfits := hready.fits
    rw [hschema] at hfits
    obtain ⟨-, ⟨hown, hfilled, -, -⟩, -⟩ := hfits
    obtain ⟨e, es, he, hes, rfl⟩ := encodeSegments_cons h
    obtain ⟨below, hbelow, henc, rfl⟩ := encodeSegment_ok he
    obtain ⟨⟨-, -, -, hnd, hwrapped⟩, hplainRest⟩ := hplain
    have hreadable : own.Readable := hnames own List.mem_cons_self
    have hnamesBelow : ∀ s ∈ Tree.preorderAll children, s.Readable := fun s hs =>
      hnames s (List.mem_append_left _ (List.mem_cons_of_mem _ hs))
    have hnamesRest : ∀ s ∈ Tree.preorderAll rest, s.Readable := fun s hs => hnames s (List.mem_append_right _ hs)
    -- no field has a name of the advice: the names of the attributes are distinct
    have hlegible : ∀ e ∈ own.entries, Legible e.1.name := fun e he =>
      ⟨hreadable.fields e he, ne_parent_document hnd e he⟩
    -- the segment, then its fields, then what stands below it, then what stands behind it
    have hadd : d.addChild id own.type.name = .ok (d.append id s own.type, d.segmentCount) := hready.addChild hm'
    obtain ⟨fields, hset, hrecovered⟩ := setEntries_fields (d := d.append id s own.type) (s := own)
      (Document.segment?_append_new hready.lt) rfl rfl (hm.fields _ hown) hfilled.1 henc
    obtain ⟨d₁, hd₁, hgrown₁⟩ := readSegments_encoded hb hm children (d := d.plant id s own.type fields) hschema
      hready.child hnamesBelow hbelow (plain_of_wrapped hwrapped)
    obtain ⟨d₂, hd₂, hgrown₂⟩ := readSegments_encoded hb hm rest (hgrown₁.schema.trans hschema)
      (hready.rest hgrown₁) hnamesRest hes hplainRest
    refine ⟨d₂, ?_, .cons hready ⟨rfl, hready.fits.1.1.symm, hrecovered⟩ hgrown₁ hgrown₂⟩
    have happly : applyAttributes (fun d' name text => d'.setWire d.segmentCount name text)
        ⟨some ns, Name.escape own.type.name, [],
          readAs ([("parent", path), ("document", docPath)] ++ own.entries.map attributeOf)⟩ (d.append id s own.type) =
          setEntries _ (d.append id s own.type) own.entries :=
      applyAttributes_entries (advice_both path docPath) hlegible rfl _
    rw [hset] at happly
    rw [elementsIn, elementIn_prefixed hb, readSegments]
    simp only [inNamespace, BEq.rfl, Bool.not_true, Bool.false_eq_true, if_false, Name.unescape_escape hreadable.type, hadd]
    rw [happly]
    simp only [readWrappers_wrapped hb]
    rw [show (d.append id s own.type).putFields d.segmentCount fields = d.plant id s own.type fields from rfl, hd₁]
    exact hd₂

end Xml

end DocWire
