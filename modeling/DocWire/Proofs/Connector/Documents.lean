/-
  DocWire.Proofs.Connector.Documents — documents come back from a connector.

  A native document holds wire strings only: the control record by control names, and a tree of segments with
  values by declared names. It is read by the message type: the control names and the declared names are
  distinct, so each look-up gives back what was written under the name, and nothing where nothing was
  written (`decodeFields_encoded`, `readHeader_controlRecord`). The segments are made again one by one, as
  `Ready` and `Grown` say (`readSegments_encoded`).

  A segment's fields are put in place at once when all of them are decoded. That comes to the same as setting
  each by its name as soon as it is decoded (`readSegment_eq`): no such name is ever refused.
-/

import DocWire.Connector.Produce
import DocWire.Proofs.Document.Reach
import DocWire.Proofs.Document.Rebuild
import DocWire.Proofs.Field.Entry

namespace DocWire

namespace HeaderField

theorem controlName_injective : Function.Injective controlName := by
  have hall : ∀ f ∈ all, ∀ g ∈ all, f.controlName = g.controlName → f = g := by decide +kernel
  intro f g h
  exact hall f f.mem_all g g.mem_all h

/-- No header field has a name of the creation stamp. -/
theorem controlName_ne_creation (f : HeaderField) :
    f.controlName ≠ creationDateControl ∧ f.controlName ≠ creationTimeControl := by
  cases f <;> decide

end HeaderField

namespace Native

/-! ## The control record -/

/-- The header that a control record holds: what stands under the control names. -/
def controlHeader (control : WireValues) : Header := ⟨fun f => control.lookup f.controlName⟩

theorem readHeader_eq (control : WireValues) (h : Header) :
    readHeader control h = h.setAll (controlHeader control).entries := by
  rw [Header.setAll, Header.entries, List.foldl_filterMap, readHeader]
  congr 1
  funext h f
  simp only [controlHeader]
  cases control.lookup f.controlName with
  | none => rfl
  | some value => rfl

/-- A header field is as the control record says, and where that says nothing as it was. -/
theorem get_readHeader (control : WireValues) (h : Header) (f : HeaderField) :
    (readHeader control h).get f = (control.lookup f.controlName).or (h.get f) := by
  rw [readHeader_eq, Header.get_setAll_entries]
  rfl

/-- The control record of a document tells its header and its creation stamp. -/
theorem lookup_controlRecord (d : Document) :
    (∀ f, (controlRecord d).lookup f.controlName = d.header.get f) ∧
      (controlRecord d).lookup creationDateControl = some d.creation.date.compact ∧
      (controlRecord d).lookup creationTimeControl = some d.creation.time.compact :=
  d.header.lookup_stamped HeaderField.controlName_injective HeaderField.controlName_ne_creation (by decide) _ _

theorem readHeader_controlRecord (d : Document) (h : Header) :
    readHeader (controlRecord d) h = h.setAll d.header.entries := by
  have hsame : controlHeader (controlRecord d) = d.header := by
    unfold controlHeader
    congr 1
    funext f
    exact (lookup_controlRecord d).1 f
  rw [readHeader_eq, hsame]

/-! ## The fields of a segment -/

/-- The native value of an entry. -/
def valueOf (e : FieldDecl × Value) : String × String := (e.1.name, wireOf e)

theorem encodeEntries_ok {entries : List (FieldDecl × Value)} {values : WireValues}
    (h : encodeEntries entries = .ok values) : values = entries.map valueOf ∧ ∀ e ∈ entries, Encodes e := by
  have hall := Pairing.of_mapM h
  clear h
  induction hall with
  | nil =>
    refine ⟨rfl, ?_⟩
    intro e he
    cases he
  | @cons e a rest as ha _ ih =>
    obtain ⟨wire, hw, rfl⟩ := Outcome.map_eq_ok.mp ha
    have hencode := Outcome.mapError_eq_ok.mp hw
    obtain ⟨-, -, rfl⟩ := Coercion.encode_eq_ok.mp hencode
    refine ⟨congrArg _ ih.1, ?_⟩
    intro e' he
    rcases List.mem_cons.mp he with rfl | he
    · exact hencode
    · exact ih.2 e' he

/-- Under the name of a field stands the wire string of its value, and nothing where it is unset. -/
theorem lookup_values {decls : List FieldDecl} {cells : List (Option Value)} (hnd : (decls.map (·.name)).Nodup)
    {x : FieldDecl × Option Value} (hx : x ∈ decls.zip cells) :
    (((decls.zip cells).filterMap fun (decl, value?) => value?.map fun value => (decl, value)).map valueOf).lookup
      x.1.name = x.2.map fun v => wireOf (x.1, v) := by
  have hnames : ((decls.zip cells).map fun x => x.1.name).Nodup := by
    have hsub : (((decls.zip cells).map Prod.fst).map FieldDecl.name).Sublist (decls.map (·.name)) :=
      (Pairing.map_fst_zip_sublist decls cells).map FieldDecl.name
    rw [List.map_map] at hsub
    exact hsub.nodup hnd
  have hvalues : ((decls.zip cells).filterMap fun (decl, value?) => value?.map fun value => (decl, value)).map valueOf =
      (decls.zip cells).filterMap fun x => (x.2.map fun v => wireOf (x.1, v)).map fun wire => (x.1.name, wire) := by
    rw [List.map_filterMap]
    congr 1
    funext x
    obtain ⟨decl, value?⟩ := x
    cases value? with
    | none => rfl
    | some v => rfl
  rw [hvalues]
  exact Lookup.lookup_filterMap (g := fun x => x.2.map fun v => wireOf (x.1, v)) hnames hx

/-- What was encoded of a segment is decoded, field by field: what was set is recovered, and what was not set
stays unset. -/
theorem decodeFields_encoded {s : Segment} (hnd : (s.type.fields.map (·.name)).Nodup)
    (hlen : s.fields.length = s.type.fields.length) {values : WireValues} (h : encodeEntries s.entries = .ok values) :
    ∃ fields, s.type.fields.mapM (decodeField values) = .ok fields ∧
      List.Forall₂ (fun x w => Option.Rel (Coercion.Recovered x.1.format) x.2 w) (s.type.fields.zip s.fields) fields := by
  obtain ⟨rfl, henc⟩ := encodeEntries_ok h
  have hone : ∀ x ∈ s.type.fields.zip s.fields, ∃ w, decodeField (s.entries.map valueOf) x.1 = .ok w ∧
      Option.Rel (Coercion.Recovered x.1.format) x.2 w := by
    intro x hx
    have hlookup : (s.entries.map valueOf).lookup x.1.name = x.2.map fun v => wireOf (x.1, v) := lookup_values hnd hx
    obtain ⟨decl, value?⟩ := x
    cases value? with
    | none => exact ⟨none, by rw [decodeField, hlookup]; rfl, .none⟩
    | some v =>
      have hmem : (decl, v) ∈ s.entries := List.mem_filterMap.mpr ⟨(decl, some v), hx, rfl⟩
      obtain ⟨w, hdecode, hrec⟩ := Coercion.decodeWire_encode (henc _ hmem)
      refine ⟨some w, ?_, .some hrec⟩
      have hwire : Coercion.decodeWire decl.format (wireOf (decl, v)) = .ok (some w) := hdecode
      simp only [decodeField, hlookup, Option.map_some, hwire, Outcome.mapError_ok]
  have hfields : (s.type.fields.zip s.fields).map Prod.fst = s.type.fields :=
    List.map_fst_zip (Nat.le_of_eq hlen.symm)
  obtain ⟨fields, hdecoded, hrecovered⟩ := Pairing.exists_both hone
  refine ⟨fields, ?_, hrecovered⟩
  rw [← hfields, List.mapM_map]
  exact Pairing.mapM_of hdecoded

/-! ## Setting fields by name -/

/-- What a declared field does to the segment `id`: it is set as soon as it is decoded. -/
def setField (values : WireValues) (id : Nat) (d : Document) (decl : FieldDecl) : Except ConnectorError Document :=
  match decodeField values decl with
  | .error e => .error e
  | .ok none => .ok d
  | .ok (some v) => (d.set id decl.name v).mapError .model

/-- Behind fields that are in place, the others are set one by one. -/
theorem foldlM_setField {d : Document} {id : Nat} {t : Segment} (ht : d.segment? id = some t)
    (hnd : (t.type.fields.map (·.name)).Nodup) (values : WireValues) :
    ∀ (rest : List FieldDecl) (before : List (Option Value)), t.type.fields.drop before.length = rest →
      rest.foldlM (setField values id) (d.putFields id (before ++ List.replicate rest.length none)) =
        (rest.mapM (decodeField values)).map fun fields => d.putFields id (before ++ fields) := by
  intro rest
  induction rest with
  | nil =>
    intro before _
    rfl
  | cons decl rest ih =>
    intro before hdrop
    obtain ⟨hdecl, hbehind⟩ := Lookup.drop_cons hdrop
    have hnext : ∀ w : Option Value, t.type.fields.drop (before ++ [w]).length = rest := by
      intro w
      rw [List.length_append, List.length_singleton, hbehind]
    rw [List.length_cons, List.replicate_succ, List.foldlM_cons, List.mapM_cons]
    cases hdecode : decodeField values decl with
    | error e =>
      simp only [setField, hdecode]
      rfl
    | ok value? =>
      -- whatever the field decodes to, its cell is filled with that
      have hstep : setField values id (d.putFields id (before ++ none :: List.replicate rest.length none)) decl =
          .ok (d.putFields id (before ++ value? :: List.replicate rest.length none)) := by
        cases value? with
        | none => simp only [setField, hdecode]
        | some v =>
          have hset : (before ++ none :: List.replicate rest.length none).set before.length (some v) =
              before ++ some v :: List.replicate rest.length none := by
            rw [List.set_append_right _ _ (Nat.le_refl _), Nat.sub_self, List.set_cons_zero]
          simp only [setField, hdecode]
          rw [Document.set, Document.changeField_putFields ht hnd hdecl, FieldDecl.accept, if_pos (decodeField_kind hdecode),
            Outcome.map_ok, hset, Outcome.mapError_ok]
      have hrest := ih (before ++ [value?]) (hnext value?)
      rw [List.append_assoc] at hrest
      rw [hstep]
      show rest.foldlM (setField values id) (d.putFields id (before ++ value? :: List.replicate rest.length none)) = _
      rw [show before ++ value? :: List.replicate rest.length none =
        before ++ ([value?] ++ List.replicate rest.length none) from rfl, hrest]
      cases rest.mapM (decodeField values) with
      | error e => rfl
      | ok fields =>
        show Except.ok (d.putFields id (before ++ [value?] ++ fields)) = _
        rw [List.append_assoc]
        rfl

/-- On a blank segment, setting each field by its declared name as soon as it is decoded comes to the same as
putting all in place when all are decoded: the same fields, or the same failure. -/
theorem readSegment_eq {d : Document} {id : Nat} {t : Segment} (ht : d.segment? id = some t)
    (hnd : (t.type.fields.map (·.name)).Nodup) (hblank : t.fields = List.replicate t.type.fields.length none)
    (type : String) (values : WireValues) (children : List NativeSegment) :
    readSegment d id (.mk type values children) =
      (t.type.fields.foldlM (setField values id) d).bind fun d => readSegments d id children := by
  have h := foldlM_setField ht hnd values t.type.fields [] rfl
  rw [List.nil_append, ← hblank, Document.putFields_self ht] at h
  rw [h, readSegment, ht]
  cases hdecode : t.type.fields.mapM (decodeField values) with
  | error e => simp only [hdecode, Except.map, Except.bind]
  | ok fields => simp only [hdecode, Except.map, Except.bind, List.nil_append]

/-! ## Segments -/

theorem ofSegment_ok {own : Segment} {children : List (Tree Segment)} {n : NativeSegment}
    (h : ofSegment (.node own children) = .ok n) :
    ∃ values below, encodeEntries own.entries = .ok values ∧ ofSegments children = .ok below ∧
      n = .mk own.type.name values below := by
  unfold ofSegment at h
  split at h
  · cases h
  rename_i values hvalues
  obtain ⟨below, hbelow, rfl⟩ := Outcome.map_eq_ok.mp h
  exact ⟨values, below, hvalues, hbelow, rfl⟩

theorem ofSegments_cons {t : Tree Segment} {rest : List (Tree Segment)} {ns : List NativeSegment}
    (h : ofSegments (t :: rest) = .ok ns) :
    ∃ n more, ofSegment t = .ok n ∧ ofSegments rest = .ok more ∧ ns = n :: more := by
  unfold ofSegments at h
  split at h
  · cases h
  rename_i n hn
  obtain ⟨more, hmore, rfl⟩ := Outcome.map_eq_ok.mp h
  exact ⟨n, more, hn, hmore, rfl⟩

theorem readSegment_iff {d d' : Document} {id : Nat} {type : String} {values : WireValues} {children : List NativeSegment} :
    readSegment d id (.mk type values children) = .ok d' ↔
      ∃ s fields, d.segment? id = some s ∧ s.type.fields.mapM (decodeField values) = .ok fields ∧
        readSegments (d.putFields id fields) id children = .ok d' := by
  constructor
  · intro h
    unfold readSegment at h
    split at h
    · cases h
    rename_i s hs
    split at h
    · cases h
    rename_i fields hfields
    exact ⟨s, fields, hs, hfields, h⟩
  · rintro ⟨s, fields, hs, hfields, h⟩
    rw [readSegment, hs]
    simp only [hfields, h]

theorem readSegments_cons_iff {d d' : Document} {id : Nat} {n : NativeSegment} {rest : List NativeSegment} :
    readSegments d id (n :: rest) = .ok d' ↔
      ∃ d₁ child d₂, d.addChild id n.type = .ok (d₁, child) ∧ readSegment d₁ child n = .ok d₂ ∧
        readSegments d₂ id rest = .ok d' := by
  constructor
  · intro h
    unfold readSegments at h
    split at h
    · cases h
    rename_i d₁ child hadd
    split at h
    · cases h
    rename_i d₂ hone
    exact ⟨d₁, child, d₂, hadd, hone, h⟩
  · rintro ⟨d₁, child, d₂, hadd, hone, h⟩
    rw [readSegments, hadd]
    simp only [hone, h]

/-- Where trees may be made, reading what was made of them makes them. -/
theorem readSegments_encoded {m : MessageType} (hm : m.Resolved) :
    ∀ (ts : List (Tree Segment)) {d : Document} {id : Nat} {s : Segment} {ns : List NativeSegment},
      d.schema = m → d.Ready id s ts → ofSegments ts = .ok ns →
      ∃ d', readSegments d id ns = .ok d' ∧ d.Grown d' id s ts
  | [], d, id, s, ns, _, hready, h => by
    simp only [ofSegments, Except.ok.injEq] at h
    subst h
    exact ⟨d, by rw [readSegments], .nil hready.found⟩
  | .node own children :: rest, d, id, s, ns, hschema, hready, h => by
    obtain ⟨n, more, hn, hmore, rfl⟩ := ofSegments_cons h
    obtain ⟨values, below, hvalues, hbelow, rfl⟩ := ofSegment_ok hn
    have hm' : d.schema.Resolved := hschema ▸ hm
    obtain ⟨hslot, ⟨hown, hfilled, -, -⟩, -⟩ := hready.fits
    -- the segment, then its fields, then what stands below it, then what stands behind it
    have hadd : d.addChild id own.type.name = .ok (d.append id s own.type, d.segmentCount) := hready.addChild hm'
    obtain ⟨fields, hdecoded, hrecovered⟩ := decodeFields_encoded (hm'.fields _ hown) hfilled.1 hvalues
    obtain ⟨d₁, hd₁, hgrown₁⟩ := readSegments_encoded hm children (d := d.plant id s own.type fields) hschema
      hready.child hbelow
    obtain ⟨d₂, hd₂, hgrown₂⟩ := readSegments_encoded hm rest (hgrown₁.schema.trans hschema)
      (hready.rest hgrown₁) hmore
    refine ⟨d₂, ?_, .cons hready ⟨rfl, hslot.1.symm, hrecovered⟩ hgrown₁ hgrown₂⟩
    have hnew : (d.append id s own.type).segment? d.segmentCount = some (.blank own.type (some id) (s.level + 1)) :=
      Document.segment?_append_new hready.lt
    have hone : readSegment (d.append id s own.type) d.segmentCount (.mk own.type.name values below) = .ok d₁ := by
      rw [readSegment, hnew]
      simp only [Segment.blank, hdecoded]
      exact hd₁
    simp only [readSegments, NativeSegment.type, hadd, hone]
    exact hd₂

/-! ## Documents -/

theorem readDocument_encoded {d : Document} (hm : d.schema.Resolved) (hd : d.Sound) {n : NativeDocument}
    (h : ofDocument d = .ok n) (creation : Stamp) :
    ∃ d', readDocument d.schema creation n = .ok d' ∧ d.Returned d' := by
  obtain ⟨root, hroot, rfl⟩ := Outcome.map_eq_ok.mp h
  have hready := hd.ready creation
  have hreturned : ∀ d', (d.renew creation).Grown d' Document.rootId (.blank d.schema.root none 0) d.tree.children →
      d.Returned d' := fun d' => hd.returned hm
  have hheader : readHeader (controlRecord d) (Document.new d.schema creation).header =
      (Document.seededHeader d.key).setAll d.header.entries := readHeader_controlRecord d _
  have hstart : (d.renew creation).segment? Document.rootId = some (.blank d.schema.root none 0) := rfl
  cases htree : d.tree with
  | node own children =>
    rw [htree] at hroot hready hreturned
    obtain ⟨values, below, -, hbelow, rfl⟩ := ofSegment_ok hroot
    obtain ⟨d', hread, hgrown⟩ := readSegments_encoded (d := d.renew creation) hm children rfl hready hbelow
    refine ⟨d', ?_, hreturned d' hgrown⟩
    have hfields : (Segment.blank d.schema.root none 0).type.fields.mapM (decodeField values) = .ok [] := by
      show d.schema.root.fields.mapM (decodeField values) = _
      rw [hm.rootFields]
      rfl
    have hput : (d.renew creation).putFields Document.rootId [] = d.renew creation := by
      have hnone : (Segment.blank d.schema.root none 0).fields = [] := by
        show List.replicate d.schema.root.fields.length none = []
        rw [hm.rootFields]
        rfl
      rw [← hnone]
      exact Document.putFields_self hstart
    rw [readDocument]
    simp only [hheader]
    rw [show ({ Document.new d.schema creation with header := (Document.seededHeader d.key).setAll d.header.entries } :
      Document) = d.renew creation from rfl, readSegment, hstart]
    simp only [hfields, hput, hread]

/-- Documents come back from a connector. Whatever comes about under a compiled registry, with any names: where a
native document is made of it, reading that one with the message type succeeds, and what is read is the same but
for what becomes of values on the wire. -/
theorem document_returned {schema : Definition} {r : Registry} (hr : Registry.compile schema = .ok r) {d : Document}
    (hd : Document.Reach r d) {n : NativeDocument} (h : ofDocument d = .ok n) (creation : Stamp) :
    ∃ d', readDocument d.schema creation n = .ok d' ∧ d.Returned d' := by
  obtain ⟨hm, hsound⟩ := hd.sound hr
  exact readDocument_encoded (Registry.resolved hr hm) hsound h creation

theorem document_returned_order : ∃ n, ofDocument Document.twoItems = .ok n ∧
    ∃ d', readDocument Document.orderSchema ⟨⟨2024, 3, 1, by decide⟩, ⟨8, 30, 0, 0, by decide⟩⟩ n = .ok d' ∧
      Document.twoItems.Returned d' := by
  obtain ⟨n, hn⟩ := Outcome.exists_ok (x := ofDocument Document.twoItems) (by decide +kernel)
  exact ⟨n, hn, document_returned Document.orders_compiled Document.twoItems_reach hn _⟩

end Native

end DocWire
