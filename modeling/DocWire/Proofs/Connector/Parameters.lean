/-
  DocWire.Proofs.Connector.Parameters — parameter sets come back from a connector, with their tables made.

  A native record does not tell a table that was never made from one that was made and is empty: neither leaves anything
  behind (`ofRecord_withTables`). The reader makes every declared table, and a nested record only where there is one. So
  what comes back is not the record that was written but `withTables` of it: the same record, in which every declared
  table is made, here and in all nested records and rows that there are (`record_filled`).

  What the writer leaves is taken from `SameRecord`, slot by slot. The reader goes through the members in order and
  fills the slot of each, which is still absent (`fillMembers_same`); under the name of a field stands the wire string
  of its value, or nothing (`Wired`).
-/

import DocWire.Connector.Consume
import DocWire.Proofs.Boundaries.Written

namespace DocWire

namespace Record

mutual

/-- A record with every declared table made: empty where it was absent. -/
def withTables : Record → Record
  | .mk f shape slots => .mk f shape (slotsWithTables shape.members slots)

def slotsWithTables : List (Member Shape) → List (Slot Record) → List (Slot Record)
  | _, [] => []
  | [], slot :: rest => slot :: rest
  | m :: ms, slot :: rest => slotWithTables m slot :: slotsWithTables ms rest
termination_by structural _ slots => slots

def slotWithTables : Member Shape → Slot Record → Slot Record
  | .table _ _ _, .absent => .table []
  | _, .absent => .absent
  | _, .value v => .value v
  | _, .nested r => .nested r.withTables
  | _, .table rows => .table (rowsWithTables rows)
termination_by structural _ slot => slot

def rowsWithTables : List Record → List Record
  | [] => []
  | r :: rest => r.withTables :: rowsWithTables rest

end

/-- The values are the same. -/
theorem entries_withTables {ms : List (Member Shape)} {slots : List (Slot Record)} :
    (ms.zip (slotsWithTables ms slots)).filterMap entry? = (ms.zip slots).filterMap entry? := by
  induction slots generalizing ms with
  | nil =>
    cases ms <;> rfl
  | cons slot rest ih =>
    cases ms with
    | nil => rfl
    | cons m ms =>
      have hentry : entry? (m, slotWithTables m slot) = entry? (m, slot) := by
        cases m <;> cases slot <;> rfl
      rw [slotsWithTables, List.zip_cons_cons, List.zip_cons_cons, List.filterMap_cons, List.filterMap_cons, hentry, ih]

end Record

namespace Native

open Boundaries (SameRecord SameRows SameSlot SameSlots SameWires)
open Markup (Written)
open Record (RowsRecovered RowsSound SlotRecovered SlotSound SlotsRecovered SlotsSound)

/-! ## What a native record does not tell -/

mutual

/-- With its tables made, a record comes to the same native record. -/
theorem ofRecord_withTables : ∀ r : Record, ofRecord r.withTables = ofRecord r
  | .mk f shape slots => by
    have hentries : (Record.mk f shape (Record.slotsWithTables shape.members slots)).entries =
        (Record.mk f shape slots).entries := Record.entries_withTables
    rw [Record.withTables, ofRecord, ofRecord, hentries, ofSlots_withTables]

theorem ofSlots_withTables : ∀ (slots : List (Slot Record)) {ms : List (Member Shape)} {names : List String},
    ofSlots names (Record.slotsWithTables ms slots) = ofSlots names slots
  | [], ms, names => by rw [Record.slotsWithTables]
  | slot :: rest, [], names => by rw [Record.slotsWithTables]
  | slot :: rest, m :: ms, names => by
    rw [Record.slotsWithTables, ofSlots, ofSlots, ofSlot_withTables, ofSlots_withTables]

theorem ofSlot_withTables : ∀ (slot : Slot Record) {m : Member Shape} {name : String},
    ofSlot name (Record.slotWithTables m slot) = ofSlot name slot
  | .absent, m, name => by
    cases m <;> rfl
  | .value v, m, name => by
    cases m <;> rfl
  | .nested r, m, name => by
    have hsame := ofRecord_withTables r
    cases m <;> rw [Record.slotWithTables, ofSlot, ofSlot, hsame]
  | .table rows, m, name => by
    have hsame := ofRows_withTables rows
    cases m <;> rw [Record.slotWithTables, ofSlot, ofSlot, hsame]

theorem ofRows_withTables : ∀ rows : List Record, ofRows (Record.rowsWithTables rows) = ofRows rows
  | [] => by rw [Record.rowsWithTables]
  | r :: rest => by rw [Record.rowsWithTables, ofRows, ofRows, ofRecord_withTables, ofRows_withTables]

end

/-! ## Fields -/

/-- What native values hold for a member: the wire string of its value, or nothing where no value is set. -/
def Wired (values : WireValues) (x : Member Shape × Slot Record) : Prop :=
  values.lookup x.1.name = (Record.entry? x).map wireOf ∧ ∀ e, Record.entry? x = some e → Encodes e

/-- Members that are told apart are found under their names. -/
theorem wired_of_same {r : Record} (hd : r.shape.Distinct) {own : List String} {attrs : Xml.Attributes} {values : WireValues}
    (h : SameWires own r.entries attrs values) : ∀ x ∈ r.shape.members.zip r.slots, Wired values x := by
  obtain ⟨-, wires, -, -, hwires, hnames⟩ := h
  have hnd : ((r.shape.members.zip r.slots).map fun x => x.1.name).Nodup := by
    have hsub := (Pairing.map_fst_zip_sublist r.shape.members r.slots).map Member.name
    rw [List.map_map] at hsub
    exact hsub.nodup hd.members
  intro x hx
  cases he : Record.entry? x with
  | some e =>
    have hmem : e ∈ r.entries := List.mem_filterMap.mpr ⟨x, hx, he⟩
    obtain ⟨attr, -, -, hencode, hlookup⟩ := Pairing.left hwires hmem
    have hwire : attr.2 = wireOf e := (Coercion.encode_eq_ok.mp hencode).2.2
    have hname : x.1.name = e.1.name := congrArg Member.name (Record.entry?_eq_some he).1
    refine ⟨?_, ?_⟩
    · rw [he, hname, hlookup, hwire]
      rfl
    · intro e' he'
      rw [he, Option.some_inj] at he'
      subst he'
      rw [Encodes, hencode, hwire]
  | none =>
    refine ⟨?_, fun e he' => by rw [he] at he'; cases he'⟩
    rw [he]
    refine Lookup.lookup_eq_none ?_
    rw [hnames]
    intro hm
    -- an entry of that name is the entry of this member, which has none
    obtain ⟨e, hmem, hname⟩ := List.mem_map.mp hm
    obtain ⟨y, hy, hey⟩ := List.mem_filterMap.mp hmem
    have hyname : y.1.name = e.1.name := congrArg Member.name (Record.entry?_eq_some hey).1
    obtain rfl : y = x := List.inj_on_of_nodup_map hnd hy hx (hyname.trans hname)
    rw [he] at hey
    cases hey

theorem decodeField_wired {values : WireValues} {decl : FieldDecl} {v : Value}
    (h : Wired values (.field decl, .value v)) :
    ∃ w, decodeField values decl = .ok (some w) ∧ Coercion.Recovered decl.format v w := by
  obtain ⟨hlookup, hencodes⟩ := h
  have hwire : values.lookup decl.name = some (wireOf (decl, v)) := hlookup
  obtain ⟨w, hdecode, hrec⟩ := Coercion.decodeWire_encode (hencodes (decl, v) rfl)
  refine ⟨w, ?_, hrec⟩
  rw [decodeField, hwire]
  exact Outcome.mapError_eq_ok.mpr hdecode

theorem decodeField_absent {values : WireValues} {decl : FieldDecl} (h : Wired values (.field decl, .absent)) :
    decodeField values decl = .ok none := by
  have hnone : values.lookup decl.name = none := h.1
  rw [decodeField, hnone]

/-! ## Members -/

variable {pre : String}

mutual

/-- A blank record is filled from what was written of another of its shape. -/
theorem fill_same : ∀ (r : Record) {own : List String} {name : String} {w : Written} {n : NativeRecord}, r.Sound →
    r.shape.Distinct → SameRecord pre own name r w n →
    ∃ r', fill r.shape (.blank r.function r.shape) n = (r', none) ∧ r.withTables.Recovered r'
  | .mk f (.mk shapeName description ms) slots, own, name, .mk _ attrs below, n, hr, hd, ⟨_, hwires, hslots⟩ => by
    obtain ⟨slots', hfill, hrec⟩ := fillMembers_same slots [] (.mk shapeName description ms) hr
      (fun m hm t ht => hd.below hm ht) (wired_of_same hd hwires) hslots
    exact ⟨.mk f (.mk shapeName description ms) slots', hfill, rfl, rfl, hrec⟩

/-- The slots behind those that are done are filled one after the other. -/
theorem fillMembers_same : ∀ (slots done : List (Slot Record)) (shape : Shape) {f : Function} {ms : List (Member Shape)}
    {ws : List Written} {n : NativeRecord}, SlotsSound f ms slots → (∀ m ∈ ms, ∀ t, m.reference? = some t → t.Distinct) →
    (∀ x ∈ ms.zip slots, Wired n.values x) → SameSlots pre n ms slots ws →
    ∃ slots', fillMembers done.length ms (.mk f shape (done ++ ms.map fun _ => .absent)) n =
        (.mk f shape (done ++ slots'), none) ∧ SlotsRecovered ms (Record.slotsWithTables ms slots) slots'
  | [], done, shape, f, ms, ws, n, hs, _, _, _ => by
    cases ms with
    | cons m ms => exact hs.elim
    | nil => exact ⟨[], rfl, trivial⟩
  | slot :: rest, done, shape, f, ms, ws, n, hs, hbelow, hwired, hsame => by
    cases ms with
    | nil => exact hs.elim
    | cons m ms =>
      obtain ⟨front, behind, -, hfirst, hmore⟩ := hsame
      obtain ⟨slot', hone, hrec⟩ := fillMember_same slot shape hs.1 (hbelow m List.mem_cons_self)
        (hwired _ List.mem_cons_self) hfirst
      obtain ⟨slots', hfill, hrest⟩ := fillMembers_same rest (done ++ [slot']) shape hs.2
        (fun m hm => hbelow m (List.mem_cons_of_mem _ hm)) (fun x hx => hwired x (List.mem_cons_of_mem _ hx)) hmore
      refine ⟨slot' :: slots', ?_, hrec, hrest⟩
      rw [List.length_append, List.length_singleton, List.append_assoc, List.append_assoc] at hfill
      rw [fillMembers, List.map_cons, hone]
      exact hfill

/-- The slot of a member is filled where it is still absent: a table is made, whether it was there or not. -/
theorem fillMember_same : ∀ (slot : Slot Record) (shape : Shape) {f : Function} {m : Member Shape} {ws : List Written}
    {n : NativeRecord}, SlotSound f m slot → (∀ t, m.reference? = some t → t.Distinct) → Wired n.values (m, slot) →
    SameSlot pre n m.name slot ws →
    ∃ slot', (∀ done cells, fillMember done.length m (.mk f shape (done ++ .absent :: cells)) n =
        (.mk f shape (done ++ slot' :: cells), none)) ∧ SlotRecovered m (Record.slotWithTables m slot) slot'
  | .absent, shape, f, m, ws, n, _, _, hwired, ⟨_, hnested, hrows⟩ => by
    cases m with
    | field decl =>
      refine ⟨.absent, ?_, trivial⟩
      intro done cells
      rw [fillMember, decodeField_absent hwired]
    | nested name description inner =>
      refine ⟨.absent, ?_, trivial⟩
      intro done cells
      have hnone : n.nested.lookup name = none := hnested
      rw [fillMember, hnone]
    | table name description row =>
      refine ⟨.table [], ?_, trivial⟩
      intro done cells
      have hempty : n.rows name = [] := hrows
      rw [fillMember_table, Xml.slotAt_append, hempty]
      simp only [List.foldl_nil, Xml.putSlot_append]
  | .value v, shape, f, m, ws, n, hs, _, hwired, _ => by
    cases m with
    | nested name description inner => exact hs.elim
    | table name description row => exact hs.elim
    | field decl =>
      obtain ⟨w, hdecode, hrec⟩ := decodeField_wired hwired
      refine ⟨.value w, ?_, hrec⟩
      intro done cells
      rw [fillMember, hdecode]
      simp only [Xml.putSlot_append]
  | .nested r, shape, f, m, ws, n, hs, hbelow, _, ⟨w, inner, _, hlookup, hsame⟩ => by
    cases m with
    | field decl => exact hs.elim
    | table name description row => exact hs.elim
    | nested name description declared =>
      obtain ⟨hf, hshape, hr⟩ := hs
      have hnested : n.nested.lookup name = some inner := hlookup
      obtain ⟨r', hfill, hrec⟩ := fill_same r hr (hshape ▸ hbelow _ rfl) hsame
      rw [hf, hshape] at hfill
      refine ⟨.nested r', ?_, hrec⟩
      intro done cells
      rw [fillMember, hnested, Xml.slotAt_append]
      simp only [Record.function_mk, hfill, Xml.putSlot_append]
  | .table rows, shape, f, m, ws, n, hs, hbelow, _, ⟨path, below, _, _, hsame⟩ => by
    cases m with
    | field decl => exact hs.elim
    | nested name description inner => exact hs.elim
    | table name description row =>
      obtain ⟨rows', hfill, hrec⟩ := fillRows_same rows hs (hbelow _ rfl) hsame
      have hfilled : (n.rows name).foldl (fillRow f row) ([], none) = (rows', none) := hfill []
      refine ⟨.table rows', ?_, hrec⟩
      intro done cells
      rw [fillMember_table, Xml.slotAt_append]
      simp only [Record.function_mk, hfilled, Xml.putSlot_append]

theorem fillRows_same : ∀ (rows : List Record) {f : Function} {row : Shape} {ws : List Written} {natives : List NativeRecord},
    RowsSound f row rows → row.Distinct → SameRows pre rows ws natives →
    ∃ rows', (∀ done, natives.foldl (fillRow f row) (done, none) = (done ++ rows', none)) ∧
      RowsRecovered (Record.rowsWithTables rows) rows'
  | [], f, row, [], [], _, _, _ => by
    refine ⟨[], ?_, trivial⟩
    intro done
    rw [List.foldl_nil, List.append_nil]
  | r :: rest, f, row, w :: ws, n :: natives, ⟨⟨hf, hshape, hr⟩, hs⟩, hd, ⟨hfirst, hmore⟩ => by
    obtain ⟨r', hone, hrec⟩ := fill_same r hr (hshape ▸ hd) hfirst
    obtain ⟨rows', hfill, hrest⟩ := fillRows_same rest hs hd hmore
    rw [hf, hshape] at hone
    refine ⟨r' :: rows', ?_, hrec, hrest⟩
    intro done
    have hstep : fillRow f row (done, none) n = (done ++ [r'], none) := by
      rw [fillRow, hone]
    rw [List.foldl_cons, hstep, hfill, List.append_assoc]
    rfl

end

/-! ## Parameter sets -/

/-- Parameter sets come back from a connector. Whatever comes about under a compiled registry, with any names: where a
native record is made of it, a blank record of the same function and shape is filled from that one without being
stopped, and it is filled with what was written, but that every declared table is made, at every depth, and for what
becomes of values on the wire. -/
theorem record_filled {schema : Definition} {reg : Registry} (hreg : Registry.compile schema = .ok reg) {r : Record}
    (hr : Record.Arises reg r) {n : NativeRecord} (h : ofRecord r = .ok n) :
    ∃ r', readRecord (.blank r.function r.shape) n = (r', none) ∧ r.withTables.Recovered r' := by
  obtain ⟨-, -, hsound⟩ := hr.sound
  have hdistinct := hr.distinct hreg
  have hagree : Boundaries.Agree (r.preorder.flatMap Record.entries) (SameRecord "" [] "" r)
      (Xml.encodeRecordAs "" "" [] "" r) (ofRecord r) := Boundaries.record_agree r [] hsound hdistinct
  obtain ⟨w, -, hsame⟩ := hagree.of_ok h
  exact fill_same r hsound hdistinct hsame

/-- A request in which a number is set, and no table was made. -/
def plainRequest : Record := (Record.request Xml.orderFunction).editBelow [] (.setWire "ID" "4711")

theorem plainRequest_arises : Record.Arises Xml.orderCalls plainRequest :=
  .made _ (.edit _ _ _ (.request Xml.orderFunction List.mem_cons_self))

theorem record_filled_order :
    (∃ n r', ofRecord plainRequest = .ok n ∧
      readRecord (.blank plainRequest.function plainRequest.shape) n = (r', none) ∧ plainRequest.withTables.Recovered r') ∧
    ∃ n r', ofRecord Xml.orderRequest = .ok n ∧
      readRecord (.blank Xml.orderRequest.function Xml.orderRequest.shape) n = (r', none) ∧
      Xml.orderRequest.withTables.Recovered r' := by
  obtain ⟨n₁, h₁⟩ := Outcome.exists_ok (x := ofRecord plainRequest) (by decide +kernel)
  obtain ⟨n₂, h₂⟩ := Outcome.exists_ok (x := ofRecord Xml.orderRequest) (by decide +kernel)
  obtain ⟨r₁, hr₁⟩ := record_filled Xml.orderCalls_compiled plainRequest_arises h₁
  obtain ⟨r₂, hr₂⟩ := record_filled Xml.orderCalls_compiled (.made _ Xml.orderRequest_reach) h₂
  exact ⟨⟨n₁, r₁, h₁, hr₁⟩, n₂, r₂, h₂, hr₂⟩

/-- The tables that were not there are made. -/
example : (plainRequest.table "NOTES").toOption.bind (·.2) |>.isNone := by rfl

example : (plainRequest.withTables.table "NOTES").toOption.bind (·.2) |>.isSome := by rfl

end Native

end DocWire
