/-
  DocWire.Proofs.Xml.Members — the members of a parameter set come back from XML.

  The fields of a record are attributes, its nested records and tables are elements, and absent members are
  neither; so a record that was made but is empty still has its element, and a table its element with as many
  rows. The reader sets the fields first, then goes through the elements: each finds its member by its own
  name, and the slot of that member is still absent.
-/

import DocWire.Proofs.Parameters.Recover
import DocWire.Proofs.Parameters.Sound
import DocWire.Proofs.Xml.Elements

namespace DocWire

/-- A shape whose member names XML can carry, at every depth. -/
def Shape.XmlSafe : Shape → Prop := Shape.Every fun ms => ∀ m ∈ ms, XmlSafeField m.name

instance Shape.decidableXmlSafe (s : Shape) : Decidable s.XmlSafe :=
  inferInstanceAs (Decidable (s.Every fun ms => ∀ m ∈ ms, XmlSafeField m.name))

/-- A shape whose members are told apart, by names that XML can carry. -/
structure Shape.Carried (s : Shape) : Prop where
  distinct : s.Distinct
  safe : s.XmlSafe

theorem Shape.Carried.below {s t : Shape} (h : s.Carried) {m : Member Shape} (hm : m ∈ s.members)
    (ht : m.reference? = some t) : t.Carried :=
  ⟨h.distinct.below hm ht, h.safe.below hm ht⟩

/-- A record whose names come back where the attributes are told apart: those of the members that are there hold no
`_-`, and no field is named as an advice that is not given for records. -/
structure Record.Readable (r : Record) : Prop where
  members : ∀ m ∈ r.present, Name.Markless m.name
  fields : ∀ e ∈ r.entries, e.1.name ≠ "document"

namespace Xml

open Markup (AllPlain Element ElementText Head Plain Scope Simple Written elementIn elementsIn readAs)
open Record (Recovered RowsRecovered RowsSound SlotRecovered SlotSound SlotsRecovered SlotsSound)

variable {scope : Scope} {pre ns : String}

/-! ## What is written -/

theorem encodeRecordAs_ok {name path : String} {attributes : Attributes} {f : Function} {shape : Shape}
    {slots : List (Slot Record)} {w : Written}
    (h : encodeRecordAs pre name attributes path (.mk f shape slots) = .ok w) :
    ∃ ws, encodeSlots pre path (shape.members.map Member.name) slots = .ok ws ∧
      (∀ e ∈ (Record.mk f shape slots).entries, Encodes e) ∧
      w = .mk name (attributes ++ (Record.mk f shape slots).entries.map attributeOf) ws := by
  unfold encodeRecordAs at h
  split at h
  · cases h
  rename_i fields hf
  obtain ⟨ws, hws, rfl⟩ := Outcome.map_eq_ok.mp h
  obtain ⟨rfl, henc⟩ := fieldAttributes_ok hf
  exact ⟨ws, hws, henc, rfl⟩

theorem encodeSlots_cons {path : String} {names : List String} {slot : Slot Record} {rest : List (Slot Record)}
    {ws : List Written} (h : encodeSlots pre path names (slot :: rest) = .ok ws) :
    ∃ es more, encodeSlot pre path (Name.escape (names.headD "")) slot = .ok es ∧
      encodeSlots pre path names.tail rest = .ok more ∧ ws = es ++ more := by
  unfold encodeSlots at h
  split at h
  · cases h
  rename_i es hes
  obtain ⟨more, hmore, rfl⟩ := Outcome.map_eq_ok.mp h
  exact ⟨es, more, hes, hmore, rfl⟩

theorem encodeRows_cons {path : String} {i : Nat} {r : Record} {rest : List Record} {ws : List Written}
    (h : encodeRows pre path i (r :: rest) = .ok ws) :
    ∃ own w more, encodeRecordAs pre "row" [("parent", path)] own r = .ok w ∧
      encodeRows pre path (i + 1) rest = .ok more ∧ ws = w :: more := by
  unfold encodeRows at h
  split at h
  · cases h
  rename_i w hw
  obtain ⟨more, hmore, rfl⟩ := Outcome.map_eq_ok.mp h
  exact ⟨_, w, more, hw, hmore, rfl⟩

theorem record_entries_safe {r : Record} (h : r.shape.Carried) :
    (∀ e ∈ r.entries, XmlSafeField e.1.name) ∧ (r.entries.map (·.1.name)).Nodup := by
  have hsub := Record.entries_sublist r
  refine ⟨fun e he => ?_, hsub.nodup h.distinct.members⟩
  obtain ⟨m, hm, hn⟩ := List.mem_map.mp (hsub.subset (List.mem_map.mpr ⟨e, he, rfl⟩))
  exact hn ▸ h.safe.members m hm

mutual

theorem readable_of_record : ∀ {r : Record}, r.Sound → r.shape.XmlSafe → ∀ x ∈ r.preorder, x.Readable
  | .mk f shape slots, hs, hsafe, x, hx => by
    rcases List.mem_cons.mp hx with rfl | hx
    · have hmembers : ∀ m ∈ (Record.mk f shape slots).present, XmlSafeField m.name := fun m hm =>
        hsafe.members m ((Record.presentAmong_sublist _ _).subset hm)
      refine ⟨fun m hm => (hmembers m hm).safe.markless, ?_⟩
      intro e he
      exact (hmembers _ (Record.entry_present he)).unreserved.2.1
    · exact readable_of_slots hs (fun m hm t ht => hsafe.below hm ht) x hx

theorem readable_of_slots : ∀ {slots : List (Slot Record)} {f : Function} {ms : List (Member Shape)},
    SlotsSound f ms slots → (∀ m ∈ ms, ∀ t, m.reference? = some t → t.XmlSafe) →
    ∀ x ∈ Record.preorderSlots slots, x.Readable
  | [], _, _, _, _, x, hx => by cases hx
  | slot :: rest, f, [], hs, _, _, _ => by cases hs
  | slot :: rest, f, m :: ms, hs, hsafe, x, hx => by
    rcases List.mem_append.mp hx with hx | hx
    · exact readable_of_slot hs.1 (hsafe m List.mem_cons_self) x hx
    · exact readable_of_slots hs.2 (fun m hm => hsafe m (List.mem_cons_of_mem _ hm)) x hx

theorem readable_of_slot : ∀ {slot : Slot Record} {f : Function} {m : Member Shape}, SlotSound f m slot →
    (∀ t, m.reference? = some t → t.XmlSafe) → ∀ x ∈ Record.preorderSlot slot, x.Readable
  | .absent, _, _, _, _, x, hx => by cases hx
  | .value v, _, _, _, _, x, hx => by cases hx
  | .nested r, f, m, hs, hsafe, x, hx => by
    cases m with
    | field decl => cases hs
    | table name description row => cases hs
    | nested name description shape =>
      obtain ⟨-, hshape, hsound⟩ := hs
      exact readable_of_record hsound (hshape ▸ hsafe shape rfl) x hx
  | .table rows, f, m, hs, hsafe, x, hx => by
    cases m with
    | field decl => cases hs
    | nested name description shape => cases hs
    | table name description row => exact readable_of_rows hs (hsafe row rfl) x hx

theorem readable_of_rows : ∀ {rows : List Record} {f : Function} {row : Shape}, RowsSound f row rows → row.XmlSafe →
    ∀ x ∈ Record.preorderRows rows, x.Readable
  | [], _, _, _, _, x, hx => by cases hx
  | r :: rest, f, row, ⟨⟨_, hshape, hsound⟩, hrest⟩, hsafe, x, hx => by
    rcases List.mem_append.mp hx with hx | hx
    · exact readable_of_record hsound (hshape ▸ hsafe) x hx
    · exact readable_of_rows hrest hsafe x hx

end

theorem row_name : ElementText "row" ∧ ':' ∉ "row".toList := by decide

mutual

/-- The markup of the members of a record holds only names that resolve and attributes that are told apart. -/
theorem encodeSlots_plain (hb : Bound scope pre ns) : ∀ (slots : List (Slot Record)) {f : Function}
    {ms : List (Member Shape)} {path : String} {ws : List Written}, (∀ m ∈ ms, XmlSafeField m.name) →
    (∀ m ∈ ms, ∀ t, m.reference? = some t → t.Carried) → SlotsSound f ms slots →
    encodeSlots pre path (ms.map Member.name) slots = .ok ws → AllPlain scope ws
  | [], _, _, _, ws, _, _, _, h => by
    simp only [encodeSlots, Except.ok.injEq] at h
    subst h
    trivial
  | slot :: rest, f, ms, path, ws, hnames, hbelow, hs, h => by
    cases ms with
    | nil => cases hs
    | cons m ms =>
      obtain ⟨es, more, hes, hmore, rfl⟩ := encodeSlots_cons h
      refine allPlain_append (encodeSlot_plain hb slot (hnames m List.mem_cons_self) (hbelow m List.mem_cons_self) hs.1
        hes) ?_
      exact encodeSlots_plain hb rest (fun m hm => hnames m (List.mem_cons_of_mem _ hm))
        (fun m hm => hbelow m (List.mem_cons_of_mem _ hm)) hs.2 hmore

theorem encodeSlot_plain (hb : Bound scope pre ns) : ∀ (slot : Slot Record) {f : Function} {m : Member Shape}
    {path : String} {ws : List Written}, XmlSafeField m.name → (∀ t, m.reference? = some t → t.Carried) →
    SlotSound f m slot → encodeSlot pre path (Name.escape m.name) slot = .ok ws → AllPlain scope ws
  | .absent, _, _, _, ws, _, _, _, h => by
    simp only [encodeSlot, Except.ok.injEq] at h
    subst h
    trivial
  | .value v, _, _, _, ws, _, _, _, h => by
    simp only [encodeSlot, Except.ok.injEq] at h
    subst h
    trivial
  | .nested (.mk f' shape slots), f, m, path, ws, hname, hbelow, hs, h => by
    simp only [encodeSlot] at h
    obtain ⟨w, hw, rfl⟩ := Outcome.map_eq_ok.mp h
    obtain ⟨ws, hws, -, rfl⟩ := encodeRecordAs_ok hw
    cases m with
    | field decl => cases hs
    | table name description row => cases hs
    | nested name description declared =>
      obtain ⟨-, rfl, hinner⟩ := hs
      have hcarried : shape.Carried := hbelow _ rfl
      obtain ⟨hentries, hnd⟩ := record_entries_safe (r := .mk f' shape slots) hcarried
      have hadvice := advice_parent path
      refine ⟨plain_prefixed hb hname.safe.nameText.1.unbroken (simple_attributes hadvice hentries)
        (nodup_attributes hadvice (List.nodup_singleton _) hentries hnd) ?_, trivial⟩
      exact encodeSlots_plain hb slots hcarried.safe.members (fun m hm t ht => hcarried.below hm ht) hinner hws
  | .table rows, f, m, path, ws, hname, hbelow, hs, h => by
    simp only [encodeSlot] at h
    obtain ⟨ws, hws, rfl⟩ := Outcome.map_eq_ok.mp h
    cases m with
    | field decl => cases hs
    | nested name description shape => cases hs
    | table name description row =>
      have hadvice := advice_parent path
      refine ⟨plain_prefixed hb hname.safe.nameText.1.unbroken (fun a => hadvice.simple) (List.nodup_singleton _) ?_,
        trivial⟩
      exact encodeRows_plain hb rows (hbelow _ rfl) hs hws

theorem encodeRows_plain (hb : Bound scope pre ns) : ∀ (rows : List Record) {f : Function} {row : Shape} {path : String}
    {i : Nat} {ws : List Written}, row.Carried → RowsSound f row rows → encodeRows pre path i rows = .ok ws →
    AllPlain scope ws
  | [], _, _, _, _, ws, _, _, h => by
    simp only [encodeRows, Except.ok.injEq] at h
    subst h
    trivial
  | .mk f' shape slots :: rest, f, row, path, i, ws, hcarried, hs, h => by
    obtain ⟨own, w, more, hw, hmore, rfl⟩ := encodeRows_cons h
    obtain ⟨ws', hws', -, rfl⟩ := encodeRecordAs_ok hw
    obtain ⟨⟨-, rfl, hinner⟩, hrest⟩ := hs
    obtain ⟨hentries, hnd⟩ := record_entries_safe (r := .mk f' shape slots) hcarried
    have hadvice := advice_parent path
    refine ⟨plain_bare row_name.1 row_name.2 (simple_attributes hadvice hentries)
      (nodup_attributes hadvice (List.nodup_singleton _) hentries hnd) ?_, encodeRows_plain hb rest hcarried hrest hmore⟩
    exact encodeSlots_plain hb slots hcarried.safe.members (fun m hm t ht => hcarried.below hm ht) hinner hws'

end

/-! ## What is read -/

/-- What a slot is after the fields were set: a field that was set is recovered, all else is absent. -/
def FieldRead (x : Member Shape × Slot Record) (cell : Slot Record) : Prop :=
  match Record.entry? x with
  | some (decl, v) => ∃ w, cell = .value w ∧ Coercion.Recovered decl.format v w
  | none => cell = .absent

/-- The fields of a blank record are set from what was written of another of its shape. -/
theorem setEntries_slots {r : Record} (hr : r.Sound) (hd : r.shape.Distinct) (henc : ∀ e ∈ r.entries, Encodes e) :
    ∃ cells, setEntries Record.setWire (.blank r.function r.shape) r.entries = .ok (.mk r.function r.shape cells) ∧
      List.Forall₂ FieldRead (r.shape.members.zip r.slots) cells := by
  have hlen := (Record.sound_iff.mp hr).length_eq
  have hzip : (r.shape.members.zip r.slots).length = r.shape.members.length := by
    rw [List.length_zip, ← hlen, Nat.min_self]
  have hblank : Record.blank r.function r.shape =
      .mk r.function r.shape (List.replicate (r.shape.members.zip r.slots).length .absent) := by
    rw [Record.blank, hzip, List.map_const']
  rw [hblank]
  refine Pairing.foldlM_fill (fun cells => Record.mk r.function r.shape cells) Record.entry?
    (fun r e => (r.setWire e.1.name (wireOf e)).mapError XmlError.model) .absent FieldRead
    (fun x hx => by rw [FieldRead, hx]) (r.shape.members.zip r.slots) fun x e before after hx he _ => ?_
  obtain ⟨m, slot⟩ := x
  obtain ⟨hm, -⟩ := List.getElem?_zip_eq_some.mp hx
  have hmem : e ∈ r.entries := List.mem_filterMap.mpr ⟨_, List.mem_of_getElem? hx, he⟩
  obtain ⟨w, hdecode, hrec⟩ := Coercion.decodeWire_encode (henc e hmem)
  refine ⟨.value w, by rw [FieldRead, he]; exact ⟨w, rfl, hrec⟩, ?_⟩
  have hfield : m = .field e.1 := (Record.entry?_eq_some he).1
  simp only at hm
  rw [hfield] at hm
  have hresolve : Record.resolveField (.mk r.function r.shape (before ++ .absent :: after)) e.1.name =
      .ok (before.length, e.1) := Record.resolveField_declared hd hm
  have hput : Record.putSlot (.mk r.function r.shape (before ++ .absent :: after)) before.length (.value w) =
      .mk r.function r.shape (before ++ .value w :: after) := by
    simp [Record.putSlot, Record.function, Record.shape, Record.slots]
  simp only [Record.setWire, Record.changeField, hresolve, FieldDecl.acceptWire, hdecode, Outcome.mapError_ok, hput]

variable {r : Record} {i : Nat} {m : Member Shape} {h : Head} {children : List Element}

theorem member?_declared (hd : r.shape.Distinct) (hm : r.shape.members[i]? = some m) :
    r.shape.member? r.ns m.name = some m := by
  rw [Shape.member?, Shape.memberIndex?_declared hd hm, Option.bind_some, hm]

/-- An element of a nested record fills the slot of its member. -/
theorem readMembers_nested {name description : String} {shape : Shape} (hd : r.shape.Distinct)
    (hm : r.shape.members[i]? = some (.nested name description shape)) (hslot : r.slotAt i = .absent)
    (hin : inNamespace ns h = true) (hname : Name.unescape h.name = name) {inner : Record}
    (hread : readRecord ns (.blank r.function shape) (.mk h children) = .ok inner) (rest : List Element) :
    readMembers ns r (.mk h children :: rest) = readMembers ns (r.putSlot i (.nested inner)) rest := by
  have hmember : r.shape.member? r.ns name = some (.nested name description shape) := member?_declared hd hm
  have hopen : r.openNested name = .ok (i, .blank r.function shape) := by
    simp only [Record.openNested, Record.resolveNested_declared hd hm, Outcome.map_ok, hslot]
  rw [readMembers]
  simp only [hin, Bool.not_true, Bool.false_eq_true, if_false, hname, hmember, hopen, hread]

/-- An element of a table fills the slot of its member. -/
theorem readMembers_table {name description : String} {row : Shape} (hd : r.shape.Distinct)
    (hm : r.shape.members[i]? = some (.table name description row)) (hslot : r.slotAt i = .absent)
    (hin : inNamespace ns h = true) (hname : Name.unescape h.name = name) (hcheck : checkAdvisory h = .ok ())
    {rows : List Record} (hread : readRows ns (.blank r.function row) children = .ok rows) (rest : List Element) :
    readMembers ns r (.mk h children :: rest) = readMembers ns (r.putSlot i (.table rows)) rest := by
  have hmember : r.shape.member? r.ns name = some (.table name description row) := member?_declared hd hm
  have hopen : r.openTable name = .ok (i, row, []) := by
    simp only [Record.openTable, Record.resolveTable_declared hd hm, Outcome.map_ok, hslot]
  rw [readMembers]
  simp only [hin, Bool.not_true, Bool.false_eq_true, if_false, hname, hmember, hcheck, hopen, hread, List.nil_append]

/-- A record is read from its element where its members are read from the elements below. -/
theorem readRecord_written {f : Function} {shape : Shape} {slots : List (Slot Record)}
    (hr : (Record.mk f shape slots).Sound) (hd : shape.Distinct)
    (henc : ∀ e ∈ (Record.mk f shape slots).entries, Encodes e)
    (hlegible : ∀ e ∈ (Record.mk f shape slots).entries, Legible e.1.name) {advice : Attributes} (ha : Advice advice)
    (he : h.attributes = readAs (advice ++ (Record.mk f shape slots).entries.map attributeOf))
    (hmembers : ∀ cells, List.Forall₂ FieldRead (shape.members.zip slots) cells →
      ∃ slots', readMembers ns (.mk f shape cells) children = .ok (.mk f shape slots') ∧
        SlotsRecovered shape.members slots slots') :
    ∃ r', readRecord ns (.blank f shape) (.mk h children) = .ok r' ∧ Recovered (.mk f shape slots) r' := by
  obtain ⟨cells, hset, hcells⟩ := setEntries_slots hr hd henc
  obtain ⟨slots', hread, hrec⟩ := hmembers cells hcells
  refine ⟨.mk f shape slots', ?_, rfl, rfl, hrec⟩
  have happly : applyAttributes Record.setWire h (.blank f shape) =
      setEntries Record.setWire (.blank f shape) (Record.mk f shape slots).entries :=
    applyAttributes_entries ha hlegible he _
  rw [readRecord, happly]
  rw [show setEntries Record.setWire (Record.blank f shape) (Record.mk f shape slots).entries =
    .ok (.mk f shape cells) from hset]
  exact hread

/-- Where a record has its parent as advice, none of its fields is mistaken for advice: they are told apart from that
one, and no field is named as the other. -/
theorem legible_of_readable {x : Record} (hx : x.Readable) {path : String}
    (hnd : (([("parent", path)] ++ x.entries.map attributeOf).map (·.1)).Nodup) : ∀ e ∈ x.entries, Legible e.1.name := by
  intro e he
  exact ⟨hx.members _ (Record.entry_present he), ne_parent hnd e he, hx.fields e he⟩

theorem inNamespace_own (ns name : String) (attrs : List Markup.Attribute) :
    inNamespace ns ⟨some ns, name, [], attrs⟩ = true := by
  simp only [inNamespace, BEq.rfl]

variable {f : Function} {shape : Shape} {done cells : List (Slot Record)} {slot : Slot Record}

theorem slotAt_append : Record.slotAt (.mk f shape (done ++ slot :: cells)) done.length = slot := by
  simp [Record.slotAt, Record.slots]

theorem putSlot_append {slot' : Slot Record} :
    Record.putSlot (.mk f shape (done ++ slot :: cells)) done.length slot' = .mk f shape (done ++ slot' :: cells) := by
  simp [Record.putSlot, Record.function, Record.shape, Record.slots]

mutual

/-- Reading what was written of the members of a record fills the slots that were still absent. -/
theorem readMembers_written (hb : Bound scope pre ns) : ∀ (slots : List (Slot Record)) (front : List (Member Shape))
    (done : List (Slot Record)) {f : Function} {shape : Shape} {ms : List (Member Shape)} {cells : List (Slot Record)}
    {path : String} {ws : List Written},
    shape.Distinct → shape.members = front ++ ms → done.length = front.length → SlotsSound f ms slots →
    List.Forall₂ FieldRead (ms.zip slots) cells → (∀ m ∈ Record.presentAmong ms slots, Name.Markless m.name) →
    (∀ x ∈ Record.preorderSlots slots, x.Readable) → encodeSlots pre path (ms.map Member.name) slots = .ok ws →
    AllPlain scope ws →
    ∃ slots', readMembers ns (.mk f shape (done ++ cells)) (elementsIn scope ws) = .ok (.mk f shape (done ++ slots')) ∧
      SlotsRecovered ms slots slots'
  | [], front, done, f, shape, ms, cells, path, ws, _, _, _, hs, hcells, _, _, h, _ => by
    cases ms with
    | cons m ms => cases hs
    | nil =>
      cases hcells
      simp only [encodeSlots, Except.ok.injEq] at h
      subst h
      exact ⟨[], by rw [elementsIn, readMembers], trivial⟩
  | slot :: more, front, done, f, shape, ms, cells, path, ws, hd, hmembers, hlen, hs, hcells, hnames, hreadable, h,
      hplain => by
    cases ms with
    | nil => cases hs
    | cons m ms =>
      cases hcells with
      | @cons _ cell _ cells hcell hcells =>
        obtain ⟨es, ws', hes, hws, rfl⟩ := encodeSlots_cons h
        obtain ⟨hplainOwn, hplainRest⟩ := allPlain_of_append hplain
        have hm : shape.members[done.length]? = some m := by
          rw [hmembers, hlen, List.getElem?_append_right (Nat.le_refl _), Nat.sub_self, List.getElem?_cons_zero]
        have hname : slot ≠ .absent → Name.Markless m.name := fun hslot => hnames m (Record.presentAmong_own hslot)
        obtain ⟨slot', hstep, hrec⟩ := readSlot_written hb slot hd hm hs.1 hcell hname
          (fun x hx => hreadable x (List.mem_append_left _ hx)) hes hplainOwn
        obtain ⟨slots', hread, hrest⟩ := readMembers_written hb more (front ++ [m]) (done ++ [slot']) hd
          (by rw [hmembers, List.append_assoc]; rfl)
          (by rw [List.length_append, List.length_append, hlen]; rfl) hs.2 hcells
          (fun m hm => hnames m (Record.presentAmong_rest hm)) (fun x hx => hreadable x (List.mem_append_right _ hx)) hws
          hplainRest
        refine ⟨slot' :: slots', ?_, hrec, hrest⟩
        rw [elementsIn_append, hstep]
        rw [List.append_assoc, List.append_assoc] at hread
        exact hread

theorem readSlot_written (hb : Bound scope pre ns) : ∀ (slot : Slot Record) {f : Function} {shape : Shape}
    {m : Member Shape} {done : List (Slot Record)} {cell : Slot Record} {path : String} {es : List Written},
    shape.Distinct → shape.members[done.length]? = some m → SlotSound f m slot → FieldRead (m, slot) cell →
    (slot ≠ .absent → Name.Markless m.name) → (∀ x ∈ Record.preorderSlot slot, x.Readable) →
    encodeSlot pre path (Name.escape m.name) slot = .ok es → AllPlain scope es →
    ∃ slot', (∀ cells rest, readMembers ns (.mk f shape (done ++ cell :: cells)) (elementsIn scope es ++ rest) =
        readMembers ns (.mk f shape (done ++ slot' :: cells)) rest) ∧ SlotRecovered m slot slot'
  | .absent, f, shape, m, done, cell, path, es, _, _, _, hcell, _, _, h, _ => by
    simp only [encodeSlot, Except.ok.injEq] at h
    subst h
    obtain rfl : cell = .absent := by
      cases m <;> exact hcell
    exact ⟨.absent, fun cells rest => rfl, by cases m <;> exact trivial⟩
  | .value v, f, shape, m, done, cell, path, es, _, _, hs, hcell, _, _, h, _ => by
    simp only [encodeSlot, Except.ok.injEq] at h
    subst h
    cases m with
    | nested name description shape => cases hs
    | table name description row => cases hs
    | field decl =>
      obtain ⟨w, rfl, hrec⟩ := hcell
      exact ⟨.value w, fun cells rest => rfl, hrec⟩
  | .nested (.mk f' inner slots), f, shape, m, done, cell, path, es, hd, hm, hs, hcell, hname, hreadable, h, hplain => by
    simp only [encodeSlot] at h
    obtain ⟨w, hw, rfl⟩ := Outcome.map_eq_ok.mp h
    obtain ⟨ws, hws, henc, rfl⟩ := encodeRecordAs_ok hw
    obtain ⟨⟨-, -, -, hnd, hplainBelow⟩, -⟩ := hplain
    cases m with
    | field decl => cases hs
    | table name description row => cases hs
    | nested name description declared =>
      obtain ⟨hf, hshape, hsound⟩ := hs
      obtain rfl : f' = f := hf
      obtain rfl : inner = declared := hshape
      obtain rfl : cell = .absent := hcell
      have hd' : inner.Distinct := hd.below (List.mem_of_getElem? hm) rfl
      have hmarkless : Name.Markless name := hname fun he => by cases he
      have hown : (Record.mk f' inner slots).Readable := hreadable _ List.mem_cons_self
      obtain ⟨r', hread, hrec⟩ := readRecord_written (h := ⟨some ns, Name.escape name, [], readAs ([("parent", path)] ++
        (Record.mk f' inner slots).entries.map attributeOf)⟩) hsound hd' henc (legible_of_readable hown hnd)
        (advice_parent path) rfl fun cells hcells => readMembers_written hb slots [] [] hd' rfl rfl hsound hcells
          hown.members (fun x hx => hreadable x (List.mem_cons_of_mem _ hx)) hws hplainBelow
      refine ⟨.nested r', fun cells rest => ?_, hrec⟩
      rw [elementsIn, elementIn_prefixed hb, elementsIn, List.singleton_append]
      have hstep := readMembers_nested (r := .mk f' shape (done ++ .absent :: cells)) hd hm slotAt_append
        (inNamespace_own _ _ _) (Name.unescape_escape hmarkless) hread rest
      rwa [putSlot_append] at hstep
  | .table rows, f, shape, m, done, cell, path, es, hd, hm, hs, hcell, hname, hreadable, h, hplain => by
    simp only [encodeSlot] at h
    obtain ⟨ws, hws, rfl⟩ := Outcome.map_eq_ok.mp h
    obtain ⟨⟨-, -, -, -, hplainBelow⟩, -⟩ := hplain
    cases m with
    | field decl => cases hs
    | nested name description shape => cases hs
    | table name description row =>
      obtain rfl : cell = .absent := hcell
      have hmarkless : Name.Markless name := hname fun he => by cases he
      obtain ⟨rows', hread, hrec⟩ := readRows_written hb rows (hd.below (List.mem_of_getElem? hm) rfl) hs hreadable hws
        hplainBelow
      refine ⟨.table rows', fun cells rest => ?_, hrec⟩
      rw [elementsIn, elementIn_prefixed hb, elementsIn, List.singleton_append]
      have hstep := readMembers_table (r := .mk f shape (done ++ .absent :: cells))
        (h := ⟨some ns, Name.escape name, [], readAs [("parent", path)]⟩) hd hm slotAt_append
        (inNamespace_own _ _ _) (Name.unescape_escape hmarkless) (checkAdvisory_advice (advice_parent path) rfl) hread rest
      rwa [putSlot_append] at hstep

theorem readRows_written (hb : Bound scope pre ns) : ∀ (rows : List Record) {f : Function} {row : Shape} {path : String}
    {i : Nat} {ws : List Written}, row.Distinct → RowsSound f row rows → (∀ x ∈ Record.preorderRows rows, x.Readable) →
    encodeRows pre path i rows = .ok ws → AllPlain scope ws →
    ∃ rows', readRows ns (.blank f row) (elementsIn scope ws) = .ok rows' ∧ RowsRecovered rows rows'
  | [], f, row, path, i, ws, _, _, _, h, _ => by
    simp only [encodeRows, Except.ok.injEq] at h
    subst h
    exact ⟨[], by rw [elementsIn, readRows], trivial⟩
  | .mk f' shape slots :: more, f, row, path, i, ws, hd, hs, hreadable, h, hplain => by
    obtain ⟨own, w, ws', hw, hws', rfl⟩ := encodeRows_cons h
    obtain ⟨ws, hws, henc, rfl⟩ := encodeRecordAs_ok hw
    obtain ⟨⟨-, -, -, hnd, hplainBelow⟩, hplainRest⟩ := hplain
    obtain ⟨⟨hf, hshape, hsound⟩, hrest⟩ := hs
    obtain rfl : f' = f := hf
    obtain rfl : shape = row := hshape
    have hown : (Record.mk f' shape slots).Readable := hreadable _ List.mem_cons_self
    have hbelow : ∀ x ∈ Record.preorderSlots slots, x.Readable := fun x hx =>
      hreadable x (List.mem_append_left _ (List.mem_cons_of_mem _ hx))
    obtain ⟨r', hread, hrec⟩ := readRecord_written (h := ⟨none, "row", [], readAs ([("parent", path)] ++
      (Record.mk f' shape slots).entries.map attributeOf)⟩) hsound hd henc (legible_of_readable hown hnd)
      (advice_parent path) rfl fun cells hcells => readMembers_written hb slots [] [] hd rfl rfl hsound hcells
        hown.members hbelow hws hplainBelow
    obtain ⟨rows', hrows, hmore⟩ := readRows_written hb more hd hrest
      (fun x hx => hreadable x (List.mem_append_right _ hx)) hws' hplainRest
    refine ⟨r' :: rows', ?_, hrec, hmore⟩
    rw [elementsIn, elementIn_bare hb row_name.2, readRows]
    have hrow : Head.isNamed ⟨none, "row", [], readAs ([("parent", path)] ++
      (Record.mk f' shape slots).entries.map attributeOf)⟩ none "row" = true := rfl
    rw [hrow]
    simp only [Bool.not_true, Bool.false_eq_true, if_false, hread, hrows, Outcome.map_ok]

end

/-! ## Under names that XML can carry -/

theorem readRecord_encoded {f : Function} {shape : Shape} {slots : List (Slot Record)}
    (hr : (Record.mk f shape slots).Sound) (hc : shape.Carried)
    (henc : ∀ e ∈ (Record.mk f shape slots).entries, Encodes e) {advice : Attributes} (ha : Advice advice)
    (he : h.attributes = readAs (advice ++ (Record.mk f shape slots).entries.map attributeOf))
    (hmembers : ∀ cells, List.Forall₂ FieldRead (shape.members.zip slots) cells →
      ∃ slots', readMembers ns (.mk f shape cells) children = .ok (.mk f shape slots') ∧
        SlotsRecovered shape.members slots slots') :
    ∃ r', readRecord ns (.blank f shape) (.mk h children) = .ok r' ∧ Recovered (.mk f shape slots) r' := by
  have hsafe := (record_entries_safe (r := .mk f shape slots) hc).1
  exact readRecord_written hr hc.distinct henc (fun e hm => (hsafe e hm).legible) ha he hmembers

theorem readMembers_encoded (hb : Bound scope pre ns) (slots : List (Slot Record)) (front : List (Member Shape))
    (done : List (Slot Record)) {f : Function} {shape : Shape} {ms : List (Member Shape)} {cells : List (Slot Record)}
    {path : String} {ws : List Written} (hc : shape.Carried) (hmembers : shape.members = front ++ ms)
    (hlen : done.length = front.length) (hs : SlotsSound f ms slots) (hcells : List.Forall₂ FieldRead (ms.zip slots) cells)
    (h : encodeSlots pre path (ms.map Member.name) slots = .ok ws) :
    ∃ slots', readMembers ns (.mk f shape (done ++ cells)) (elementsIn scope ws) = .ok (.mk f shape (done ++ slots')) ∧
      SlotsRecovered ms slots slots' := by
  have hin : ∀ m ∈ ms, m ∈ shape.members := by
    intro m hm
    rw [hmembers]
    exact List.mem_append_right _ hm
  have hnames : ∀ m ∈ ms, XmlSafeField m.name := fun m hm => hc.safe.members m (hin m hm)
  have hplain := encodeSlots_plain hb slots hnames (fun m hm t ht => hc.below (hin m hm) ht) hs h
  refine readMembers_written hb slots front done hc.distinct hmembers hlen hs hcells ?_ ?_ h hplain
  · intro m hm
    exact (hnames m ((Record.presentAmong_sublist _ _).subset hm)).safe.markless
  · exact readable_of_slots hs fun m hm t ht => hc.safe.below (hin m hm) ht

end Xml

end DocWire
