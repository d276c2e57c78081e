/-
  DocWire.Proofs.Document.Reach — the documents that can come about.

  A document begins empty, or is read from XML or from a connector's native form, and is then changed by
  edits, in any order, on any of its segments; an edit that fails leaves it as it was. Readers make what
  they make by the same operations, so what `setWire`, `addChild` and the filling of a new segment keep, both
  readers keep, whatever the property is (`Document.Kept`).

  `Reach.sound`: every document that comes about under a compiled registry is `Sound`. In particular a
  field map never holds a name that is not declared, a value of another kind, or more than is declared,
  and a child type never occurs more often than its slot says, in whatever spelling it was asked for.
-/

import DocWire.Connector.Consume
import DocWire.Proofs.Document.Sound
import DocWire.Proofs.Schema.Registry
import DocWire.Xml.Decode

namespace DocWire

namespace Document

inductive Edit where
  | setHeader (field : HeaderField) (value : String)
  | unsetHeader (field : HeaderField)
  | set (id : Nat) (name : String) (value : Value)
  | setWire (id : Nat) (name text : String)
  | unset (id : Nat) (name : String)
  | addChild (id : Nat) (name : String)

def attempt (d : Document) : Edit → Except ModelError Document
  | .setHeader field value => .ok (d.setHeader field value)
  | .unsetHeader field => .ok (d.unsetHeader field)
  | .set id name value => d.set id name value
  | .setWire id name text => d.setWire id name text
  | .unset id name => d.unset id name
  | .addChild id name => (d.addChild id name).map Prod.fst

/-- The document behind an edit: the same one when the edit fails. -/
def edit (d : Document) (e : Edit) : Document :=
  match d.attempt e with
  | .ok d => d
  | .error _ => d

inductive Reach (r : Registry) : Document → Prop
  | new (m : MessageType) (creation : Stamp) : m ∈ r.messageTypes → Reach r (.new m creation)
  | decoded (o : Options) (creation : Stamp) (text : String) (d : Document) :
      Xml.documentOfText r o creation text = .ok d → Reach r d
  | listed (o : Options) (creation : Stamp) (text : String) (b : Batch) (d : Document) :
      Xml.batchOfText r o creation text = .ok b → d ∈ b.documents → Reach r d
  | received (m : MessageType) (creation : Stamp) (n : NativeDocument) (d : Document) : m ∈ r.messageTypes →
      Native.readDocument m creation n = .ok d → Reach r d
  | edit (d : Document) (e : Edit) : Reach r d → Reach r (d.edit e)

/-! ## What one operation keeps -/

variable {d d' : Document}

theorem Sound.changeField (hm : d.schema.Resolved) (h : d.Sound) {id : Nat} {name : String}
    {change : FieldDecl → Except ModelError (Option Value)}
    (hc : ∀ decl v, change decl = .ok (some v) → v.kind = decl.type.kind)
    (hok : d.changeField id name change = .ok d') : d'.schema = d.schema ∧ d'.Sound := by
  obtain ⟨s, i, decl, value?, hs, hi, hv, rfl⟩ := changeField_eq_ok hok
  refine ⟨rfl, h.putFields hm hs ((h.filled id s hs).set hi fun v he => ?_)⟩
  rw [he] at hv
  exact hc decl v hv

theorem Sound.setWire (hm : d.schema.Resolved) (h : d.Sound) {id : Nat} {name text : String}
    (hok : d.setWire id name text = .ok d') : d'.schema = d.schema ∧ d'.Sound :=
  h.changeField hm (fun _ _ => FieldDecl.acceptWire_kind) hok

theorem Sound.addChild (hm : d.schema.Resolved) (h : d.Sound) {id c : Nat} {name : String}
    (hok : d.addChild id name = .ok (d', c)) : d'.schema = d.schema ∧ d'.Sound := by
  obtain ⟨s, slot, type, hs, hc, hlt, rfl, -⟩ := addChild_eq_ok hok
  obtain ⟨hslot, htype, hn, hk⟩ := hm.childOf?_some (h.types id s hs) hc
  exact ⟨rfl, h.append hm hs hslot hn hk htype hlt⟩

theorem Sound.attempt (hm : d.schema.Resolved) (h : d.Sound) {e : Edit} (hok : d.attempt e = .ok d') :
    d'.schema = d.schema ∧ d'.Sound := by
  cases e with
  | setHeader field value =>
    cases hok
    exact ⟨rfl, h.header _⟩
  | unsetHeader field =>
    cases hok
    exact ⟨rfl, h.header _⟩
  | set id name value => exact h.changeField hm (fun _ _ => FieldDecl.accept_kind) hok
  | setWire id name text => exact h.setWire hm hok
  | unset id name =>
    refine h.changeField hm (fun decl v hv => ?_) hok
    cases hv
  | addChild id name =>
    obtain ⟨⟨d', c⟩, hadd, rfl⟩ := Outcome.map_eq_ok.mp hok
    exact h.addChild hm hadd

/-- A failing edit changes nothing, and one that succeeds keeps the document sound. -/
theorem Sound.edit (hm : d.schema.Resolved) (h : d.Sound) (e : Edit) :
    (d.edit e).schema = d.schema ∧ (d.edit e).Sound := by
  unfold Document.edit
  split
  · rename_i hok
    exact h.attempt hm hok
  · exact ⟨rfl, h⟩

end Document

/-! ## Fields that were decoded -/

namespace Native

theorem decodeField_kind {values : WireValues} {decl : FieldDecl} {v : Value}
    (h : decodeField values decl = .ok (some v)) : v.kind = decl.type.kind := by
  unfold decodeField at h
  split at h
  · cases h
  · exact Coercion.decodeWire_kind (Outcome.mapError_eq_ok.mp h)

/-- The fields of a segment, decoded one by one. -/
def Decoded (values : WireValues) (s : Segment) (fields : List (Option Value)) : Prop :=
  List.Forall₂ (fun decl value? => decodeField values decl = .ok value?) s.type.fields fields

theorem Decoded.filled {values : WireValues} {s : Segment} {fields : List (Option Value)}
    (h : Decoded values s fields) : { s with fields := fields }.Filled := by
  refine ⟨h.length_eq.symm, fun decl v hm => ?_⟩
  obtain ⟨i, hd, hv⟩ := Segment.mem_entries.mp hm
  exact decodeField_kind (Pairing.getElem? h hd hv)

end Native

/-! ## What the readers keep -/

/-- A property that the documents of a message type have when they are new, and keep while they are read: while the
header is filled, fields are set from wire strings, segments are added, and the fields of a segment are put in place as
they were decoded. -/
structure Document.Kept (m : MessageType) (Q : Document → Prop) : Prop where
  new (creation : Stamp) : Q (.new m creation)
  header {d : Document} (header : Header) : Q d → Q { d with header := header }
  setWire {d d' : Document} {id : Nat} {name text : String} : Q d → d.setWire id name text = .ok d' → Q d'
  addChild {d d' : Document} {id c : Nat} {name : String} : Q d → d.addChild id name = .ok (d', c) → Q d'
  putDecoded {d : Document} {id : Nat} {s : Segment} {values : WireValues} {fields : List (Option Value)} : Q d →
    d.segment? id = some s → Native.Decoded values s fields → Q (d.putFields id fields)

/-- Soundness is kept. -/
theorem Document.sound_kept {m : MessageType} (hm : m.Resolved) : Document.Kept m fun d => d.schema = m ∧ d.Sound where
  new creation := ⟨rfl, Document.new_sound hm creation⟩
  header header h := ⟨h.1, h.2.header header⟩
  setWire := by
    rintro d d' id name text ⟨rfl, h⟩ hok
    exact h.setWire hm hok
  addChild := by
    rintro d d' id c name ⟨rfl, h⟩ hok
    exact h.addChild hm hok
  putDecoded := by
    rintro d id s values fields ⟨rfl, h⟩ hs hf
    exact ⟨rfl, h.putFields hm hs hf.filled⟩

namespace Xml

variable {Q : Document → Prop}

theorem applyAttributes_keeps {σ : Type} {P : σ → Prop} {set : σ → String → String → Except ModelError σ}
    (hset : ∀ s name text s', P s → set s name text = .ok s' → P s') {h : Markup.Head} {s s' : σ} (hp : P s)
    (hok : applyAttributes set h s = .ok s') : P s' := by
  refine Outcome.foldlM_keeps (fun s a t hp ht => ?_) hp hok
  split at ht
  · cases ht
  split at ht
  · cases ht
    exact hp
  · exact hset s _ _ t hp (Outcome.mapError_eq_ok.mp ht)

mutual

theorem readWrappers_keeps (hset : ∀ d id name text d', Q d → d.setWire id name text = .ok d' → Q d')
    (hadd : ∀ d id name d' c, Q d → d.addChild id name = .ok (d', c) → Q d') {ns : String} {id : Nat} :
    ∀ {es : List Markup.Element} {d d' : Document}, Q d → readWrappers ns d id es = .ok d' → Q d'
  | [], d, d', hq, hok => by
    simp only [readWrappers, Except.ok.injEq] at hok
    exact hok ▸ hq
  | .mk h children :: rest, d, d', hq, hok => by
    unfold readWrappers at hok
    split at hok
    · cases hok
    split at hok
    · cases hok
    split at hok
    · cases hok
    rename_i d₁ hd
    exact readWrappers_keeps hset hadd (readSegments_keeps hset hadd hq hd) hok

theorem readSegments_keeps (hset : ∀ d id name text d', Q d → d.setWire id name text = .ok d' → Q d')
    (hadd : ∀ d id name d' c, Q d → d.addChild id name = .ok (d', c) → Q d') {ns : String} {id : Nat} :
    ∀ {es : List Markup.Element} {d d' : Document}, Q d → readSegments ns d id es = .ok d' → Q d'
  | [], d, d', hq, hok => by
    simp only [readSegments, Except.ok.injEq] at hok
    exact hok ▸ hq
  | .mk h children :: rest, d, d', hq, hok => by
    unfold readSegments at hok
    split at hok
    · cases hok
    split at hok
    · cases hok
    rename_i d₁ child hd₁
    split at hok
    · cases hok
    rename_i d₂ hd₂
    split at hok
    · cases hok
    rename_i d₃ hd₃
    have hq₂ := applyAttributes_keeps (hset · child) (hadd _ _ _ _ _ hq hd₁) hd₂
    exact readSegments_keeps hset hadd (readWrappers_keeps hset hadd hq₂ hd₃) hok

end

theorem readHeader_keeps (hheader : ∀ d header, Q d → Q { d with header := header }) {h : Markup.Head}
    {d d' : Document} (hq : Q d) (hok : readHeader h d = .ok d') : Q d' := by
  refine Outcome.foldlM_keeps (fun d a t hq ht => ?_) hq hok
  split at ht
  · cases ht
  split at ht
  · cases ht
    exact hq
  split at ht
  · cases ht
    exact hheader _ _ hq
  · cases ht

/-- What is kept is kept by the reader of documents, whatever it reads. -/
theorem readDocument_keeps {m : MessageType} (hk : Document.Kept m Q) {ns : String} {creation : Stamp}
    {e : Markup.Element} {d : Document} (hok : readDocument m ns creation e = .ok d) : Q d := by
  unfold readDocument at hok
  split at hok
  · cases hok
  rename_i d₁ hd₁
  split at hok
  · cases hok
  rename_i root hroot
  split at hok
  · cases hok
  rename_i d₂ hd₂
  have h₁ : Q d₁ := readHeader_keeps (fun _ header h => hk.header header h) (hk.new creation) hd₁
  have h₂ : Q d₂ := applyAttributes_keeps (fun _ _ _ _ h => hk.setWire h) h₁ hd₂
  exact readWrappers_keeps (fun _ _ _ _ _ h => hk.setWire h) (fun _ _ _ _ _ h => hk.addChild h) h₂ hok

theorem readListed_keeps {ns : String} {creation : Stamp} :
    ∀ {es : List Markup.Element} {b b' : Batch}, Document.Kept b.schema Q → (∀ d ∈ b.documents, Q d) →
      readListed ns creation b es = .ok b' → b'.schema = b.schema ∧ ∀ d ∈ b'.documents, Q d
  | [], b, b', _, hb, hok => by
    cases hok
    exact ⟨rfl, hb⟩
  | e :: rest, b, b', hk, hb, hok => by
    unfold readListed at hok
    split at hok
    · cases hok
    split at hok
    · cases hok
    rename_i d hd
    split at hok
    · cases hok
    rename_i b₁ hb₁
    unfold Batch.push at hb₁
    split at hb₁
    · cases hb₁
      refine readListed_keeps (b := { b with documents := b.documents ++ [d] }) hk (fun d' hd' => ?_) hok
      rcases List.mem_append.mp hd' with hd' | hd'
      · exact hb d' hd'
      · rw [List.mem_singleton.mp hd']
        exact readDocument_keeps hk hd
    · cases hb₁

theorem topMessageType_mem {r : Registry} {o : Options} {h : Markup.Head} {m : MessageType} {ns : String}
    (hok : topMessageType r o h = .ok (m, ns)) : m ∈ r.messageTypes := by
  unfold topMessageType at hok
  split at hok
  · cases hok
  · obtain ⟨m', hm, he⟩ := Outcome.map_eq_ok.mp hok
    cases he
    exact Registry.messageTypeById_mem (Outcome.mapError_eq_ok.mp hm)

/-- What documents of the registered message types keep, a document read from a text has. -/
theorem documentOfText_keeps {r : Registry} {Q : MessageType → Document → Prop}
    (hk : ∀ m ∈ r.messageTypes, Document.Kept m (Q m)) {o : Options} {creation : Stamp} {text : String} {d : Document}
    (hok : documentOfText r o creation text = .ok d) : ∃ m ∈ r.messageTypes, Q m d := by
  obtain ⟨e, -, hd⟩ := Outcome.bind_eq_ok.mp hok
  unfold decodeDocument at hd
  split at hd
  · cases hd
  split at hd
  · cases hd
  rename_i m ns htop
  have hm := topMessageType_mem htop
  exact ⟨m, hm, readDocument_keeps (hk m hm) hd⟩

theorem batchOfText_keeps {r : Registry} {Q : MessageType → Document → Prop}
    (hk : ∀ m ∈ r.messageTypes, Document.Kept m (Q m)) {o : Options} {creation : Stamp} {text : String} {b : Batch}
    (hok : batchOfText r o creation text = .ok b) : b.schema ∈ r.messageTypes ∧ ∀ d ∈ b.documents, Q b.schema d := by
  obtain ⟨e, -, hb⟩ := Outcome.bind_eq_ok.mp hok
  unfold decodeBatch at hb
  split at hb
  · cases hb
  split at hb
  · cases hb
  split at hb
  · cases hb
  rename_i m ns htop
  have hm := topMessageType_mem htop
  obtain ⟨hs, hall⟩ := readListed_keeps (b := .new m) (hk m hm) (fun d hd => by cases hd) hb
  rw [hs]
  exact ⟨hm, hall⟩

theorem documentOfText_sound {r : Registry} (hr : ∀ m ∈ r.messageTypes, m.Resolved) {o : Options}
    {creation : Stamp} {text : String} {d : Document} (hok : documentOfText r o creation text = .ok d) :
    d.schema ∈ r.messageTypes ∧ d.Sound := by
  obtain ⟨m, hm, hs, hsound⟩ := documentOfText_keeps (fun m hm => Document.sound_kept (hr m hm)) hok
  exact ⟨hs ▸ hm, hsound⟩

theorem batchOfText_sound {r : Registry} (hr : ∀ m ∈ r.messageTypes, m.Resolved) {o : Options}
    {creation : Stamp} {text : String} {b : Batch} (hok : batchOfText r o creation text = .ok b) :
    b.schema ∈ r.messageTypes ∧ ∀ d ∈ b.documents, d.schema = b.schema ∧ d.Sound :=
  batchOfText_keeps (fun m hm => Document.sound_kept (hr m hm)) hok

end Xml

namespace Native

variable {Q : Document → Prop}

mutual

theorem readSegment_keeps
    (hput : ∀ d id s values fields, Q d → d.segment? id = some s → Decoded values s fields → Q (d.putFields id fields))
    (hadd : ∀ d id name d' c, Q d → d.addChild id name = .ok (d', c) → Q d') :
    ∀ {n : NativeSegment} {id : Nat} {d d' : Document}, Q d → readSegment d id n = .ok d' → Q d'
  | .mk type values children, id, d, d', hq, hok => by
    unfold readSegment at hok
    split at hok
    · cases hok
    rename_i s hs
    split at hok
    · cases hok
    rename_i fields hf
    exact readSegments_keeps hput hadd (hput d id s values fields hq hs (Pairing.of_mapM hf)) hok

theorem readSegments_keeps
    (hput : ∀ d id s values fields, Q d → d.segment? id = some s → Decoded values s fields → Q (d.putFields id fields))
    (hadd : ∀ d id name d' c, Q d → d.addChild id name = .ok (d', c) → Q d') :
    ∀ {ns : List NativeSegment} {id : Nat} {d d' : Document}, Q d → readSegments d id ns = .ok d' → Q d'
  | [], id, d, d', hq, hok => by
    simp only [readSegments, Except.ok.injEq] at hok
    exact hok ▸ hq
  | n :: rest, id, d, d', hq, hok => by
    unfold readSegments at hok
    split at hok
    · cases hok
    rename_i d₁ child hd₁
    split at hok
    · cases hok
    rename_i d₂ hd₂
    exact readSegments_keeps hput hadd (readSegment_keeps hput hadd (hadd _ _ _ _ _ hq hd₁) hd₂) hok

end

theorem readDocument_keeps {m : MessageType} (hk : Document.Kept m Q) {creation : Stamp} {n : NativeDocument}
    {d : Document} (hok : readDocument m creation n = .ok d) : Q d :=
  readSegment_keeps (fun _ _ _ _ _ h => hk.putDecoded h) (fun _ _ _ _ _ h => hk.addChild h)
    (hk.header _ (hk.new creation)) hok

theorem readDocument_sound {m : MessageType} (hm : m.Resolved) {creation : Stamp} {n : NativeDocument}
    {d : Document} (hok : readDocument m creation n = .ok d) : d.schema = m ∧ d.Sound :=
  readDocument_keeps (Document.sound_kept hm) hok

end Native

/-! ## Every document -/

namespace Document

variable {d : Document}

theorem Reach.sound {schema : Definition} {r : Registry} (hr : Registry.compile schema = .ok r)
    (h : Reach r d) : d.schema ∈ r.messageTypes ∧ d.Sound := by
  have hres : ∀ m ∈ r.messageTypes, m.Resolved := fun m => Registry.resolved hr
  induction h with
  | new m creation hm => exact ⟨hm, new_sound (hres m hm) creation⟩
  | decoded o creation text d hok => exact Xml.documentOfText_sound hres hok
  | listed o creation text b d hok hd =>
    obtain ⟨hm, hall⟩ := Xml.batchOfText_sound hres hok
    obtain ⟨hs, hsound⟩ := hall d hd
    exact ⟨hs ▸ hm, hsound⟩
  | received m creation n d hm hok =>
    obtain ⟨hs, hsound⟩ := Native.readDocument_sound (hres m hm) hok
    exact ⟨hs ▸ hm, hsound⟩
  | edit d e _ ih =>
    obtain ⟨hs, hsound⟩ := ih.2.edit (hres _ ih.1) e
    exact ⟨hs ▸ ih.1, hsound⟩

theorem Reach.edits {r : Registry} (h : Reach r d) (es : List Edit) : Reach r (es.foldl Document.edit d) := by
  induction es generalizing d with
  | nil => exact h
  | cons e rest ih => exact ih (.edit d e h)

/-- How a segment stands in its document. -/
structure WellPlaced (d : Document) (i : Nat) (s : Segment) : Prop where
  /-- The root alone has no parent. -/
  parentless : s.parent = none ↔ i = rootId
  /-- Every other is listed once, by an earlier segment, and by no other; it stands in a slot for its type,
  one level below, at the level of that slot. -/
  above : i ≠ rootId → ∃ p parent, p < i ∧ s.parent = some p ∧ d.segment? p = some parent ∧
    (∀ q t, d.segment? q = some t → t.children.count i = if q = p then 1 else 0) ∧ d.Fits parent s
  listed : ∀ c ∈ s.children, ∃ t, d.segment? c = some t ∧ t.parent = some i
  limits : ∀ slot ∈ s.type.children, (d.childrenNamed s slot.segmentType).length ≤ slot.maxOccurrence
  declared : (s.entries.map (·.1.name)).Nodup ∧
    ∀ decl v, (decl, v) ∈ s.entries → decl ∈ s.type.fields ∧ v.kind = decl.type.kind
  counted : s.fieldCount = s.entries.length ∧ s.fieldCount ≤ s.type.fields.length

theorem Sound.wellPlaced (hm : d.schema.Resolved) (h : d.Sound) {i : Nat} {s : Segment}
    (hs : d.segment? i = some s) : d.WellPlaced i s := by
  have hsub := Segment.entries_sublist (s := s)
  obtain ⟨hlen, hkind⟩ := h.filled i s hs
  have hcount := Segment.length_entries hlen
  refine ⟨h.parent_eq_none_iff hs, fun hi => ?_, h.listed i s hs, h.limits i s hs, ⟨?_, fun decl v hv => ?_⟩,
    hcount.symm, ?_⟩
  · obtain ⟨p, parent, hlt, hp, hparent, -, hfits⟩ := h.above i s hs hi
    exact ⟨p, parent, hlt, hp, hparent, fun q t ht => h.count_children hs hp ht, hfits⟩
  · have := hm.fields s.type (h.types i s hs)
    have hnames := (hsub.map FieldDecl.name).nodup this
    rwa [List.map_map] at hnames
  · exact ⟨hsub.subset (List.mem_map.mpr ⟨_, hv, rfl⟩), hkind decl v hv⟩
  · rw [← hcount, ← List.length_map (f := Prod.fst)]
    exact hsub.length_le

/-- Every document that comes about under a compiled registry is of one of its message types, has an empty
root at level 0, and has every segment in its place. -/
theorem reach_wellPlaced {schema : Definition} {r : Registry} (hr : Registry.compile schema = .ok r)
    {d : Document} (h : Reach r d) :
    d.schema ∈ r.messageTypes ∧
    (∃ s, d.segment? rootId = some s ∧ s.type = d.schema.root ∧ s.level = 0 ∧ s.fields = []) ∧
    ∀ i s, d.segment? i = some s → d.WellPlaced i s := by
  obtain ⟨hm, hsound⟩ := h.sound hr
  obtain ⟨s, hs, ht, -, hl, hf⟩ := hsound.root
  exact ⟨hm, ⟨s, hs, ht, hl, hf⟩, fun i s hs => hsound.wellPlaced (Registry.resolved hr hm) hs⟩

/-- Orders with a head, and items below it. -/
def orderType : MessageDef :=
  { key := ⟨"R", "ORDER", "", "", ""⟩
    root := [{ segmentType := "HEAD" }]
    segments :=
      [{ segmentType := "HEAD", fields := [{ name := "NUMBER", type := .int4 }],
         children := [{ segmentType := "ITEM", maxOccurrence := 2 }] },
       { segmentType := "ITEM", fields := [{ name := "PRICE", type := .packed }] }] }

def orderSchema : MessageType := (Compile.compileMessageType orderType).toOption.get rfl

def orders : Registry := ⟨[orderSchema], [], []⟩

/-- An order with two items; there was no room for a third. -/
def twoItems : Document :=
  [.addChild 0 "HEAD", .setWire 1 "NUMBER" "7", .addChild 1 "ITEM", .addChild 1 "ITEM", .addChild 1 "ITEM"].foldl
    edit (new orderSchema ⟨⟨2024, 2, 29, by decide⟩, ⟨12, 0, 0, 0, by decide⟩⟩)

theorem twoItems_reach : Reach orders twoItems :=
  (Reach.new _ _ (List.mem_singleton.mpr rfl)).edits _

theorem orders_compiled : Registry.compile { messageTypes := [orderType] } = .ok orders := rfl

theorem reach_wellPlaced_order :
    Registry.compile { messageTypes := [orderType] } = .ok orders ∧ Reach orders twoItems ∧
      twoItems.segmentCount = 4 ∧ twoItems.schema ∈ orders.messageTypes ∧
      (∃ s, twoItems.segment? rootId = some s ∧ s.type = twoItems.schema.root ∧ s.level = 0 ∧ s.fields = []) ∧
      ∀ i s, twoItems.segment? i = some s → twoItems.WellPlaced i s :=
  ⟨orders_compiled, twoItems_reach, by decide +kernel, reach_wellPlaced orders_compiled twoItems_reach⟩

end Document

end DocWire
