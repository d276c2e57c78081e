/-
  DocWire.Proofs.Xml.Document — documents come back from XML.

  A document is found again by its namespace, gets its header back, and has the tree that was written. Lists
  of documents come back document by document, in their order.
-/

import DocWire.Proofs.Document.Reach
import DocWire.Proofs.Xml.Header
import DocWire.Proofs.Xml.Segments

namespace DocWire

namespace Batch

/-- The lists that can come about: documents are added new or from elsewhere and edited in place, or the
list is read. -/
inductive Reach (r : Registry) : Batch → Prop
  | new (m : MessageType) : m ∈ r.messageTypes → Reach r (.new m)
  | add (b : Batch) (creation : Stamp) : Reach r b → Reach r (b.add creation)
  | push (b b' : Batch) (d : Document) : Reach r b → Document.Reach r d → b.push d = .ok b' → Reach r b'
  | edit (b : Batch) (i : Nat) (e : Document.Edit) : Reach r b →
      Reach r { b with documents := b.documents.modify i (·.edit e) }
  | decoded (o : Options) (creation : Stamp) (text : String) (b : Batch) :
      Xml.batchOfText r o creation text = .ok b → Reach r b

/-- Every document of a list comes about under the same registry, and is of the list's message type. -/
theorem Reach.documents {schema : Definition} {r : Registry} (hr : Registry.compile schema = .ok r) {b : Batch}
    (h : Reach r b) : b.schema ∈ r.messageTypes ∧ ∀ d ∈ b.documents, d.schema = b.schema ∧ d.Sound := by
  have hres : ∀ m ∈ r.messageTypes, m.Resolved := fun m => Registry.resolved hr
  induction h with
  | new m hm => exact ⟨hm, fun d hd => by cases hd⟩
  | add b creation _ ih =>
    refine ⟨ih.1, fun d hd => ?_⟩
    rcases List.mem_append.mp hd with hd | hd
    · exact ih.2 d hd
    · rw [List.mem_singleton.mp hd]
      exact ⟨rfl, Document.new_sound (hres _ ih.1) creation⟩
  | push b b' d _ hd hok ih =>
    obtain ⟨hm, hsound⟩ := hd.sound hr
    unfold Batch.push at hok
    split at hok
    · rename_i hkey
      cases hok
      refine ⟨ih.1, fun d' hd' => ?_⟩
      rcases List.mem_append.mp hd' with hd' | hd'
      · exact ih.2 d' hd'
      · rw [List.mem_singleton.mp hd']
        -- two registered types with one key are one
        exact ⟨List.inj_on_of_nodup_map (Registry.keys_nodup hr) hm ih.1 hkey, hsound⟩
    · cases hok
  | edit b i e _ ih =>
    refine ⟨ih.1, fun d hd => ?_⟩
    obtain ⟨j, hj⟩ := List.getElem?_of_mem hd
    rw [List.getElem?_modify] at hj
    obtain ⟨old, hold, he⟩ := Option.map_eq_some_iff.mp hj
    obtain ⟨hs, hsound⟩ := ih.2 old (List.mem_of_getElem? hold)
    split at he
    · obtain ⟨hs', hsound'⟩ := hsound.edit (hres _ (hs ▸ ih.1)) e
      rw [← he]
      exact ⟨hs'.trans hs, hsound'⟩
    · rw [← he]
      exact ⟨hs, hsound⟩
  | decoded o creation text b hok => exact Xml.batchOfText_sound hres hok

end Batch

namespace Xml

open Markup (AllPlain Element Head Simple Unbroken Written elementIn elementsIn readAs)

variable {m : MessageType} {scope : Markup.Scope} {pre ns docPath : String}

/-! ## One document -/

theorem encodeDocumentAs_ok {name : String} {attributes : Attributes} {d : Document} {w : Written}
    (h : encodeDocumentAs name attributes docPath d = .ok w) :
    ∃ root, encodeRoot (messagePrefix d.key.basicType) docPath d.tree = .ok root ∧
      w = .mk name (attributes ++ headerAttributes d) [root] := by
  obtain ⟨root, hroot, rfl⟩ := Outcome.map_eq_ok.mp h
  exact ⟨root, hroot, rfl⟩

theorem encodeRoot_plain (hb : Bound scope pre ns) (hsafe : m.XmlSafe) (hm : m.Resolved) {t : Tree Segment}
    (ht : t.Fits m) {w : Written} (h : encodeRoot pre docPath t = .ok w) : AllPlain scope [w] := by
  cases t with
  | node own children =>
    obtain ⟨hown, -, -, hall⟩ := ht
    obtain ⟨below, hbelow, rfl⟩ := encodeRoot_ok h
    obtain ⟨hentries, hnd⟩ := entries_safe hsafe hm hown
    have hadvice := advice_both docPath docPath
    exact ⟨plain_bare bare_names.2.1.1 bare_names.2.1.2 (simple_attributes hadvice hentries)
      (nodup_attributes hadvice (by simp) hentries hnd)
      (wrapped_plain (encodeSegments_plain hb hsafe hm children hown hall hbelow)), trivial⟩

theorem readable_of_sound {d : Document} (hsafe : d.schema.XmlSafe) (hm : d.schema.Resolved) (hd : d.Sound) :
    ∀ s ∈ Tree.preorderAll d.tree.children, s.Readable := by
  obtain ⟨hfits, -⟩ := hd.tree_fits
  cases htree : d.tree with
  | node own children =>
    rw [htree] at hfits
    obtain ⟨hown, -, -, hall⟩ := hfits
    exact readable_of_allFit hsafe hm hown hall

theorem readDocument_encoded (hb : Bound scope pre ns) {d : Document} (hm : d.schema.Resolved) (hd : d.Sound)
    (hnames : ∀ s ∈ Tree.preorderAll d.tree.children, s.Readable) {root : Written}
    (hroot : encodeRoot pre docPath d.tree = .ok root) (hplain : AllPlain scope [root]) {advice : Attributes}
    (ha : Advice advice) {h : Head} (he : h.attributes = readAs (advice ++ headerAttributes d))
    (creation : Stamp) :
    ∃ d', readDocument d.schema ns creation (.mk h (elementsIn scope [root])) = .ok d' ∧ d.Returned d' := by
  have hready := hd.ready creation
  obtain ⟨-, -, -, hempty⟩ := hd.tree_fits
  have hheader := readHeader_written ha he (.new d.schema creation)
  have hreturned : ∀ d', (d.renew creation).Grown d' Document.rootId (.blank d.schema.root none 0) d.tree.children →
      d.Returned d' := fun d' => hd.returned hm
  cases htree : d.tree with
  | node own children =>
    rw [htree] at hroot hready hempty hreturned hnames
    obtain ⟨below, hbelow, rfl⟩ := encodeRoot_ok hroot
    obtain ⟨⟨-, -, -, -, hwrapped⟩, -⟩ := hplain
    obtain ⟨d', hread, hgrown⟩ := readSegments_encoded (d := d.renew creation) hb hm children rfl hready hnames hbelow
      (plain_of_wrapped hwrapped)
    have hentries : own.entries = [] := by
      have hfields : own.fields = [] := hempty
      rw [Segment.entries, hfields, List.zip_nil_right, List.filterMap_nil]
    have happly : applyAttributes (fun d name text => d.setWire Document.rootId name text) ⟨none, "rootSegment", [],
        readAs [("parent", docPath), ("document", docPath)]⟩ (d.renew creation) = setEntries _ (d.renew creation) [] :=
      applyAttributes_entries (advice_both docPath docPath) (fun e he => by cases he) rfl _
    refine ⟨d', ?_, hreturned d' hgrown⟩
    have hrootElement : rootElement (.mk h (elementsIn scope [.mk "rootSegment" ([("parent", docPath),
        ("document", docPath)] ++ own.entries.map attributeOf) (wrapped (childPath docPath "rootSegment") below)])) =
        .ok (.mk ⟨none, "rootSegment", [], readAs [("parent", docPath), ("document", docPath)]⟩
          (elementsIn scope (wrapped (childPath docPath "rootSegment") below))) := by
      rw [elementsIn, elementIn_bare hb bare_names.2.1.2, hentries]
      rfl
    rw [readDocument]
    simp only [Element.head, hheader, hrootElement]
    rw [show ({ Document.new d.schema creation with header :=
      (Document.new d.schema creation).header.setAll d.header.entries } : Document) = d.renew creation from rfl, happly]
    simp only [setEntries, List.foldlM_nil, Element.children]
    rw [← hread, ← readWrappers_wrapped hb]
    rfl

/-! ## Lists -/

theorem encodeListed_cons {i : Nat} {d : Document} {rest : List Document} {ws : List Written}
    (h : encodeListed i (d :: rest) = .ok ws) :
    ∃ w es, encodeDocumentAs "document" [("parent", "/")] (childPath "/" ("document." ++ toString i)) d = .ok w ∧
      encodeListed (i + 1) rest = .ok es ∧ ws = w :: es := by
  unfold encodeListed at h
  split at h
  · cases h
  rename_i w hw
  obtain ⟨es, hes, rfl⟩ := Outcome.map_eq_ok.mp h
  exact ⟨w, es, hw, hes, rfl⟩

theorem encodeListed_plain (hb : Bound scope pre ns) (hsafe : m.XmlSafe) (hm : m.Resolved)
    (hpre : messagePrefix m.key.basicType = pre) : ∀ (ds : List Document) {i : Nat} {ws : List Written},
    (∀ d ∈ ds, d.schema = m ∧ d.Sound) → encodeListed i ds = .ok ws → AllPlain scope ws
  | [], i, ws, _, h => by
    simp only [encodeListed, Except.ok.injEq] at h
    subst h
    trivial
  | d :: rest, i, ws, hall, h => by
    obtain ⟨w, es, hw, hes, rfl⟩ := encodeListed_cons h
    obtain ⟨root, hroot, rfl⟩ := encodeDocumentAs_ok hw
    obtain ⟨hschema, hsound⟩ := hall d List.mem_cons_self
    have hfits := hsound.tree_fits.1
    rw [hschema] at hfits
    rw [Document.key, hschema, hpre] at hroot
    have hplain := encodeRoot_plain hb hsafe hm hfits hroot
    refine ⟨plain_bare bare_names.2.2.1 bare_names.2.2.2 (simple_headerAttributes (advice_parent "/") d)
      (nodup_headerAttributes (advice_parent "/") (List.nodup_singleton _) d) hplain, ?_⟩
    exact encodeListed_plain hb hsafe hm hpre rest (fun d hd => hall d (List.mem_cons_of_mem _ hd)) hes

theorem readListed_encoded (hb : Bound scope pre ns) (hsafe : m.XmlSafe) (hm : m.Resolved)
    (hpre : messagePrefix m.key.basicType = pre) (creation : Stamp) :
    ∀ (ds : List Document) {i : Nat} {ws : List Written} (b : Batch), b.schema = m →
      (∀ d ∈ ds, d.schema = m ∧ d.Sound) → encodeListed i ds = .ok ws →
      ∃ ds', readListed ns creation b (elementsIn scope ws) = .ok { b with documents := b.documents ++ ds' } ∧
        List.Forall₂ Document.Returned ds ds'
  | [], i, ws, b, _, _, h => by
    simp only [encodeListed, Except.ok.injEq] at h
    subst h
    exact ⟨[], by rw [elementsIn, readListed, List.append_nil], .nil⟩
  | d :: rest, i, ws, b, hschema, hall, h => by
    obtain ⟨w, es, hw, hes, rfl⟩ := encodeListed_cons h
    obtain ⟨root, hroot, rfl⟩ := encodeDocumentAs_ok hw
    obtain ⟨hd, hsound⟩ := hall d List.mem_cons_self
    rw [Document.key, hd, hpre] at hroot
    have hfits := hsound.tree_fits.1
    rw [hd] at hfits
    obtain ⟨d', hread, hreturned⟩ := readDocument_encoded hb (hd ▸ hm) hsound
      (readable_of_sound (hd ▸ hsafe) (hd ▸ hm) hsound) hroot (encodeRoot_plain hb hsafe hm hfits hroot) (advice_parent "/")
      (h := ⟨none, "document", [], readAs ([("parent", "/")] ++ headerAttributes d)⟩) rfl creation
    have hpush : b.push d' = .ok { b with documents := b.documents ++ [d'] } := by
      have hkey : d'.key = b.key := by
        rw [Document.key, Batch.key, hreturned.schema, hd, hschema]
      rw [Batch.push, if_pos hkey]
    obtain ⟨ds', hrest, hmore⟩ := readListed_encoded hb hsafe hm hpre creation rest
      { b with documents := b.documents ++ [d'] } hschema (fun d hd => hall d (List.mem_cons_of_mem _ hd)) hes
    refine ⟨d' :: ds', ?_, .cons hreturned hmore⟩
    rw [elementsIn, elementIn_bare hb bare_names.2.2.2, readListed]
    rw [hd, ← hschema] at hread
    rw [List.append_assoc] at hrest
    simp only [Element.head, Head.isNamed, BEq.rfl, Bool.and_self, Bool.not_true, Bool.false_eq_true, if_false, hread,
      hpush]
    exact hrest

/-! ## From text -/

variable {schema : Definition} {r : Registry} {o o' : Options}

theorem idocNamespace_congr (h : o'.base = o.base) : o'.idocNamespace = o.idocNamespace := by
  simp only [Options.idocNamespace, Options.trimmedBase, h]

/-- What the top element of a document or a list is read as, its children apart. -/
def topHead (o : Options) (key : TypeKey) (name : String) (attrs : Attributes) : Head :=
  ⟨some o.idocNamespace, name, [(Options.idocPrefix, o.idocNamespace),
    (messagePrefix key.basicType, o.messageNamespace key)], readAs attrs⟩

/-- The message type is looked for under the key that the namespace of a message tells. -/
theorem topMessageType_topHead (hbase : o'.base = o.base) (key : TypeKey) (name : String) (attrs : Attributes) :
    topMessageType r o' (topHead o key name attrs) =
      ((r.messageTypeById key.id).mapError .registry).map fun m => (m, o.messageNamespace key) := by
  have hns := idocNamespace_congr hbase
  have hkind : o'.messageId? o.idocNamespace = none := by
    rw [← hns]
    exact messageId?_idocNamespace o'
  have hmessage : o'.messageId? (o.messageNamespace key) = some key.id := by
    rw [Options.messageNamespace, ← hns]
    exact messageId?_messageNamespace o' key
  simp only [topMessageType, topHead, List.findSome?_cons, hkind, hmessage, Option.map_none, Option.map_some]

/-- A message type is found by the namespace of its messages. -/
theorem topMessageType_found (hr : Registry.compile schema = .ok r) (hm : m ∈ r.messageTypes)
    (hidentified : m.key.repository ≠ "" ∧ m.key.basicType ≠ "") (hparts : ∀ p ∈ m.key.parts, Name.Markless p)
    (hbase : o'.base = o.base) (name : String) (attrs : Attributes) :
    topMessageType r o' (topHead o m.key name attrs) = .ok (m, o.messageNamespace m.key) := by
  have hkey := TypeKey.ofId?_id hidentified.1 hidentified.2 hparts
  rw [topMessageType_topHead hbase]
  simp only [Registry.messageTypeById, hkey, Registry.messageType_key hr hm, Outcome.mapError_ok, Outcome.map_ok]

theorem checkTop_topHead (hbase : o'.base = o.base) (key : TypeKey) (name : String) (attrs : Attributes) :
    checkTop (topHead o key name attrs) o'.idocNamespace [name] = .ok () := by
  simp [checkTop, topHead, idocNamespace_congr hbase]

/-- The element that a text with the namespaces of a message type holds. -/
theorem elementOfText_document (hsafe : m.XmlSafe) (ho : ReferenceFree o.base) {name : String} (hn : Unbroken name)
    (attrs : Attributes) {children : List Written} (hs : ∀ a ∈ attrs, Simple a.1) (hnd : (attrs.map (·.1)).Nodup)
    (hall : ∀ scope, Bound scope (messagePrefix m.key.basicType) (o.messageNamespace m.key) → AllPlain scope children) :
    ∃ scope, Bound scope (messagePrefix m.key.basicType) (o.messageNamespace m.key) ∧
      elementOfText (render o (.mk (Options.idocPrefix ++ ":" ++ name) (documentNamespaces o m.key ++ attrs) children)) =
        .ok (.mk (topHead o m.key name attrs) (elementsIn scope children)) := by
  obtain ⟨hkind, hmessage⟩ := declarable_document (o := o) ho fun p hp => (hsafe.parts p hp).2
  have hb := bound_messageScope hkind hmessage
  exact ⟨_, hb, elementOfText_top hkind hmessage (messagePrefix_untaken _).1 hn hs hnd (hall _ hb) o.indent o.declaration⟩

theorem top_names : Unbroken "Document" ∧ Unbroken "DocumentList" := by decide

theorem documentOfText_documentText (hr : Registry.compile schema = .ok r) {d : Document} (hm : d.schema ∈ r.messageTypes)
    (hd : d.Sound) (hsafe : d.schema.XmlSafe) (ho : ReferenceFree o.base) (hbase : o'.base = o.base) (creation : Stamp)
    {text : String} (h : documentText o d = .ok text) :
    ∃ d', documentOfText r o' creation text = .ok d' ∧ d.Returned d' := by
  have hres := Registry.resolved hr hm
  have hnone : Advice [] := fun a ha => by cases ha
  obtain ⟨w, hw, rfl⟩ := Outcome.map_eq_ok.mp h
  obtain ⟨root, hroot, rfl⟩ := encodeDocumentAs_ok hw
  have hs : ∀ a ∈ headerAttributes d, Simple a.1 := simple_headerAttributes hnone d
  have hnd : ((headerAttributes d).map (·.1)).Nodup := nodup_headerAttributes hnone List.nodup_nil d
  obtain ⟨scope, hb, htext⟩ := elementOfText_document hsafe ho top_names.1 _ hs hnd fun scope hb =>
    encodeRoot_plain hb hsafe hres hd.tree_fits.1 hroot
  obtain ⟨d', hread, hreturned⟩ := readDocument_encoded hb hres hd (readable_of_sound hsafe hres hd) hroot
    (encodeRoot_plain hb hsafe hres hd.tree_fits.1 hroot) hnone (h := topHead o d.key "Document" (headerAttributes d)) rfl
    creation
  refine ⟨d', ?_, hreturned⟩
  have hname : Options.idocPrefix ++ ":Document" = Options.idocPrefix ++ ":" ++ "Document" := by decide
  rw [hname]
  refine Outcome.bind_eq_ok.mpr ⟨_, htext, ?_⟩
  rw [decodeDocument, Element.head, checkTop_topHead hbase]
  simp only [topMessageType_found hr hm hsafe.identified (fun p hp => (hsafe.parts p hp).1) hbase]
  exact hread

theorem batchOfText_batchText (hr : Registry.compile schema = .ok r) {b : Batch} (hm : b.schema ∈ r.messageTypes)
    (hb : ∀ d ∈ b.documents, d.schema = b.schema ∧ d.Sound) (hsafe : b.schema.XmlSafe) (ho : ReferenceFree o.base)
    (hbase : o'.base = o.base) (creation : Stamp) {text : String} (h : batchText o b = .ok text) :
    ∃ b', batchOfText r o' creation text = .ok b' ∧ b'.schema = b.schema ∧
      List.Forall₂ Document.Returned b.documents b'.documents := by
  have hres := Registry.resolved hr hm
  have hnone : Advice [] := fun a ha => by cases ha
  obtain ⟨w, hw, rfl⟩ := Outcome.map_eq_ok.mp h
  obtain ⟨ws, hws, rfl⟩ := Outcome.map_eq_ok.mp hw
  obtain ⟨scope, hbound, htext⟩ := elementOfText_document hsafe ho top_names.2 [] (fun a ha => by cases ha)
    List.nodup_nil fun scope hbound => encodeListed_plain hbound hsafe hres rfl b.documents hb hws
  obtain ⟨ds, hread, hreturned⟩ := readListed_encoded hbound hsafe hres rfl creation b.documents (.new b.schema) rfl hb hws
  refine ⟨⟨b.schema, ds⟩, ?_, rfl, hreturned⟩
  have hname : Options.idocPrefix ++ ":DocumentList" = Options.idocPrefix ++ ":" ++ "DocumentList" := by decide
  have hcheck : checkAdvisory (topHead o b.schema.key "DocumentList" []) = .ok () := checkAdvisory_advice hnone rfl
  rw [hname]
  refine Outcome.bind_eq_ok.mpr ⟨_, htext, ?_⟩
  rw [decodeBatch, Element.head, checkTop_topHead hbase, hcheck]
  simp only [topMessageType_found hr hm hsafe.identified (fun p hp => (hsafe.parts p hp).1) hbase]
  exact hread

/-- Documents and lists of documents come back from XML. Whatever comes about under a compiled registry, of a
message type that XML can carry: where it can be written, the text is read with the same registry and base,
in any layout, and what is read is the same but for what becomes of values on the wire. -/
theorem documents_returned (hr : Registry.compile schema = .ok r) (hsafe : m.XmlSafe) (ho : ReferenceFree o.base)
    (hbase : o'.base = o.base) (creation : Stamp) (text : String) :
    (∀ d, Document.Reach r d → d.schema = m → documentText o d = .ok text →
      ∃ d', documentOfText r o' creation text = .ok d' ∧ d.Returned d') ∧
    (∀ b, Batch.Reach r b → b.schema = m → batchText o b = .ok text →
      ∃ b', batchOfText r o' creation text = .ok b' ∧ b'.schema = b.schema ∧
        List.Forall₂ Document.Returned b.documents b'.documents) := by
  constructor
  · intro d hd hs htext
    obtain ⟨hm, hsound⟩ := hd.sound hr
    exact documentOfText_documentText hr hm hsound (hs ▸ hsafe) ho hbase creation htext
  · intro b hb hs htext
    obtain ⟨hm, hall⟩ := hb.documents hr
    exact batchOfText_batchText hr hm hall (hs ▸ hsafe) ho hbase creation htext

/-- Two orders, one with items and one empty. -/
def twoOrders : Batch :=
  Batch.add ⟨Document.orderSchema, [Document.twoItems]⟩ ⟨⟨2024, 3, 1, by decide⟩, ⟨8, 30, 0, 0, by decide⟩⟩

theorem twoOrders_reach : Batch.Reach Document.orders twoOrders :=
  .add _ _ (.push (.new Document.orderSchema) _ Document.twoItems (.new _ List.mem_cons_self) Document.twoItems_reach
    (if_pos (by decide +kernel)))

theorem documents_returned_order : ∃ text text' : String,
    documentText {} Document.twoItems = .ok text ∧ batchText {} twoOrders = .ok text' ∧
      (∃ d', documentOfText Document.orders { indent := 0, declaration := false } Document.twoItems.creation text = .ok d' ∧
        Document.twoItems.Returned d') ∧
      ∃ b', batchOfText Document.orders { indent := 0 } Document.twoItems.creation text' = .ok b' ∧
        b'.schema = Document.orderSchema ∧ List.Forall₂ Document.Returned twoOrders.documents b'.documents := by
  obtain ⟨text, htext⟩ := Outcome.exists_ok (x := documentText {} Document.twoItems) (by decide +kernel)
  obtain ⟨text', htext'⟩ := Outcome.exists_ok (x := batchText {} twoOrders) (by decide +kernel)
  have hsafe : Document.orderSchema.XmlSafe := by decide +kernel
  have hbase : ReferenceFree ({} : Options).base := by decide +kernel
  refine ⟨text, text', htext, htext', ?_, ?_⟩
  · exact (documents_returned Document.orders_compiled hsafe hbase rfl _ text).1 _ Document.twoItems_reach
      (by rfl) htext
  · exact (documents_returned Document.orders_compiled hsafe hbase rfl _ text').2 _ twoOrders_reach rfl htext'

end Xml

end DocWire
