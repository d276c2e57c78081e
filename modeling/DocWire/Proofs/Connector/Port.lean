/-
  DocWire.Proofs.Connector.Port — the connector in memory is one of the ports.

  Calls through any connector write a record and read an answer piece by piece, by the operations of the connector.
  In memory that comes to the conversions of whole records: into an empty structure a record writes what it is
  converted to, as its members are told apart (`write_operations`), and a record is filled from what a structure
  shows as from the structure itself (`read_operations`). So a call through the port is a call of the connector
  (`port_call`).
-/

import DocWire.Connector.Port
import DocWire.Proofs.Parameters.Arise
import DocWire.Proofs.Parameters.Inner

namespace DocWire

/-! ## Named parts -/

section

variable {α : Type} {name : String} {xs : List (String × α)}

theorem putNamed_fresh {a : α} (h : name ∉ xs.map Prod.fst) : putNamed name a xs = xs ++ [(name, a)] := by
  induction xs with
  | nil => rfl
  | cons x rest ih =>
    rw [List.map_cons, List.mem_cons, not_or] at h
    rw [putNamed, if_neg (Ne.symm h.1), ih h.2, List.cons_append]

theorem putNamed_last {a b : α} (h : name ∉ xs.map Prod.fst) :
    putNamed name a (xs ++ [(name, b)]) = xs ++ [(name, a)] := by
  induction xs with
  | nil => simp [putNamed]
  | cons x rest ih =>
    rw [List.map_cons, List.mem_cons, not_or] at h
    rw [List.cons_append, putNamed, if_neg (Ne.symm h.1), ih h.2, List.cons_append]

end

namespace NativeStructure

open Native (encodeEntries encodeField ofRecord ofRows ofSlot ofSlots)
open Record (RowsSound SlotSound SlotsSound)

/-! ## Writing -/

theorem encodeEntries_cons {decl : FieldDecl} {value : Value} {rest : List (FieldDecl × Value)} :
    encodeEntries ((decl, value) :: rest) = match encodeField decl value with
      | .error e => .error e
      | .ok wire => (encodeEntries rest).map ((decl.name, wire) :: ·) := by
  rw [encodeEntries, List.mapM_cons]
  cases hwire : encodeField decl value <;> simp only [hwire] <;> rfl

theorem writeEntries_operations {entries : List (FieldDecl × Value)} (values : WireValues)
    {nested : List (String × NativeRecord)} {tables : List (String × List NativeRecord)}
    (h : (values.map Prod.fst ++ entries.map (·.1.name)).Nodup) :
    NativeRecord.operations.writeEntries entries (.mk values nested tables) =
      (encodeEntries entries).map fun added => .mk (values ++ added) nested tables := by
  induction entries generalizing values with
  | nil =>
    rw [writeEntries]
    show _ = Except.ok (NativeRecord.mk (values ++ []) nested tables)
    rw [List.append_nil]
  | cons e rest ih =>
    obtain ⟨decl, value⟩ := e
    rw [writeEntries, encodeEntries_cons]
    cases encodeField decl value with
    | error e => rfl
    | ok wire =>
      have hfresh : decl.name ∉ values.map Prod.fst := by
        intro hmem
        exact (List.nodup_append.mp h).2.2 _ hmem _ List.mem_cons_self rfl
      have hput : NativeRecord.operations.setValue (.mk values nested tables) decl.name wire =
          .ok (.mk (values ++ [(decl.name, wire)]) nested tables) := by
        show Except.ok (NativeRecord.mk (putNamed decl.name wire values) nested tables) = _
        rw [putNamed_fresh hfresh]
      have hrest : ((values ++ [(decl.name, wire)]).map Prod.fst ++ rest.map (·.1.name)).Nodup := by
        simpa using h
      simp only [hput, ih _ hrest]
      cases encodeEntries rest <;> simp [Except.map]

/-- Tables with the rows of one more behind them, unless there are none. -/
def withRows (tables : List (String × List NativeRecord)) (name : String) (rows : List NativeRecord) :
    List (String × List NativeRecord) :=
  tables ++ if rows.isEmpty then [] else [(name, rows)]

theorem appendRow_withRows (values : WireValues) (nested : List (String × NativeRecord))
    {tables : List (String × List NativeRecord)} {name : String} (rows : List NativeRecord)
    (h : name ∉ tables.map Prod.fst) :
    ∃ putBack, NativeRecord.operations.appendRow (.mk values nested (withRows tables name rows)) name =
        .ok (.empty, putBack) ∧
      ∀ row, putBack row = .mk values nested (withRows tables name (rows ++ [row])) := by
  refine ⟨_, rfl, ?_⟩
  intro row
  have hrows : (NativeRecord.mk values nested (withRows tables name rows)).rows name = rows := by
    show ((withRows tables name rows).lookup name).getD [] = rows
    rw [withRows, Lookup.lookup_behind h]
    cases rows <;> simp
  show NativeRecord.mk values nested (putNamed name (_ ++ [row]) (withRows tables name rows)) = _
  rw [hrows]
  cases rows with
  | nil => simp [withRows, putNamed_fresh h]
  | cons r rest => simp [withRows, putNamed_last h]

/-- What a slot comes to stands under its name. -/
theorem ofSlot_names {slot : Slot Record} {name : String} {added : Native.Parts} (h : ofSlot name slot = .ok added) :
    (∀ k ∈ added.1.map Prod.fst, k = name) ∧ ∀ k ∈ added.2.map Prod.fst, k = name := by
  cases slot with
  | absent =>
    cases h
    simp
  | value v =>
    cases h
    simp
  | nested r =>
    obtain ⟨n, -, rfl⟩ := Outcome.map_eq_ok.mp h
    simp
  | table rows =>
    obtain ⟨natives, -, rfl⟩ := Outcome.map_eq_ok.mp h
    cases natives <;> simp

mutual

/-- What a record writes into an empty structure is what it is converted to. -/
theorem write_operations : ∀ (r : Record), r.Sound → r.shape.Distinct →
    NativeRecord.operations.write r .empty = ofRecord r
  | .mk f shape slots, hr, hd => by
    have hnames : ((Record.mk f shape slots).entries.map (·.1.name)).Nodup :=
      (Record.entries_sublist _).nodup hd.members
    rw [write, ofRecord, NativeRecord.empty, writeEntries_operations [] hnames]
    cases encodeEntries (Record.mk f shape slots).entries with
    | error e => rfl
    | ok values =>
      have hslots := writeSlots_operations slots ([] ++ values) [] [] hr hd.members
        (fun m hm t ht => hd.below hm ht) (fun m hm => ⟨List.not_mem_nil, List.not_mem_nil⟩)
      simp only [Outcome.map_ok]
      rw [hslots]
      rfl

/-- The members of the slots have no parts yet. -/
theorem writeSlots_operations {f : Function} : ∀ (slots : List (Slot Record)) {ms : List (Member Shape)} (values : WireValues)
    (nested : List (String × NativeRecord)) (tables : List (String × List NativeRecord)), SlotsSound f ms slots →
    (ms.map Member.name).Nodup → (∀ m ∈ ms, ∀ t, m.reference? = some t → t.Distinct) →
    (∀ m ∈ ms, m.name ∉ nested.map Prod.fst ∧ m.name ∉ tables.map Prod.fst) →
    NativeRecord.operations.writeSlots (ms.map Member.name) slots (.mk values nested tables) =
      (ofSlots (ms.map Member.name) slots).map fun added => .mk values (nested ++ added.1) (tables ++ added.2)
  | [], ms, values, nested, tables, _, _, _, _ => by
    rw [writeSlots, ofSlots]
    simp [Except.map]
  | slot :: rest, [], values, nested, tables, hs, _, _, _ => by cases hs
  | slot :: rest, m :: ms, values, nested, tables, ⟨hslot, hrest⟩, hnd, hd, hfresh => by
    rw [List.map_cons, List.nodup_cons] at hnd
    have hone := writeSlot_operations slot values hslot (hd m List.mem_cons_self) (hfresh m List.mem_cons_self)
    rw [List.map_cons, writeSlots, ofSlots, List.headD_cons, List.tail_cons, hone]
    cases hadded : ofSlot m.name slot with
    | error e => rfl
    | ok added =>
      -- what the slot added stands under its own name, so the members behind it are still without parts
      have hfresh' : ∀ m' ∈ ms, m'.name ∉ (nested ++ added.1).map Prod.fst ∧ m'.name ∉ (tables ++ added.2).map Prod.fst := by
        intro m' hm'
        have hne : m'.name ≠ m.name := fun he => hnd.1 (he ▸ List.mem_map_of_mem hm')
        obtain ⟨hnested, htables⟩ := ofSlot_names hadded
        obtain ⟨hn, ht⟩ := hfresh m' (List.mem_cons_of_mem _ hm')
        simp only [List.map_append, List.mem_append, not_or]
        exact ⟨⟨hn, fun h => hne (hnested _ h)⟩, ht, fun h => hne (htables _ h)⟩
      simp only [Outcome.map_ok]
      rw [writeSlots_operations rest values _ _ hrest hnd.2 (fun m' hm' => hd m' (List.mem_cons_of_mem _ hm')) hfresh']
      cases ofSlots (ms.map Member.name) rest <;> simp [Except.map]

theorem writeSlot_operations {f : Function} : ∀ (slot : Slot Record) {m : Member Shape} {name : String} (values : WireValues)
    {nested : List (String × NativeRecord)} {tables : List (String × List NativeRecord)}, SlotSound f m slot →
    (∀ t, m.reference? = some t → t.Distinct) → name ∉ nested.map Prod.fst ∧ name ∉ tables.map Prod.fst →
    NativeRecord.operations.writeSlot name slot (.mk values nested tables) =
      (ofSlot name slot).map fun added => .mk values (nested ++ added.1) (tables ++ added.2)
  | .absent, m, name, values, nested, tables, _, _, _ => by
    rw [writeSlot, ofSlot]
    simp [Except.map]
  | .value v, m, name, values, nested, tables, _, _, _ => by
    rw [writeSlot, ofSlot]
    simp [Except.map]
  | .nested r, m, name, values, nested, tables, hs, hd, hfresh => by
    cases m with
    | field decl => cases hs
    | table declared description row => cases hs
    | nested declared description shape =>
      obtain ⟨-, rfl, hr⟩ := hs
      have hopen : NativeRecord.operations.openStructure (.mk values nested tables) name =
          .ok (.empty, fun inner => .mk values (putNamed name inner nested) tables) := by
        show Except.ok ((nested.lookup name).getD NativeRecord.empty, _) = _
        rw [Lookup.lookup_eq_none hfresh.1]
        rfl
      rw [writeSlot, hopen]
      simp only [write_operations r hr (hd r.shape rfl)]
      rw [ofSlot]
      cases ofRecord r with
      | error e => rfl
      | ok n =>
        show Except.ok (NativeRecord.mk values (putNamed name n nested) tables) = _
        rw [putNamed_fresh hfresh.1]
        simp [Except.map]
  | .table rows, m, name, values, nested, tables, hs, hd, hfresh => by
    cases m with
    | field decl => cases hs
    | nested declared description shape => cases hs
    | table declared description row =>
      have hall : ∀ r ∈ rows, r.Sound ∧ r.shape.Distinct := by
        intro r hr
        obtain ⟨-, hshape, hsound⟩ := Record.rowsSound_iff.mp hs r hr
        exact ⟨hsound, hshape ▸ hd row rfl⟩
      have hrows := writeRows_operations rows values nested [] hall hfresh.2
      rw [withRows, List.isEmpty_nil, if_pos rfl, List.append_nil] at hrows
      rw [writeSlot, ofSlot, hrows]
      cases ofRows rows <;> simp [Except.map, withRows]

theorem writeRows_operations : ∀ (rows : List Record) {name : String} (values : WireValues)
    (nested : List (String × NativeRecord)) {tables : List (String × List NativeRecord)} (done : List NativeRecord),
    (∀ r ∈ rows, r.Sound ∧ r.shape.Distinct) → name ∉ tables.map Prod.fst →
    NativeRecord.operations.writeRows name rows (.mk values nested (withRows tables name done)) =
      (ofRows rows).map fun natives => .mk values nested (withRows tables name (done ++ natives))
  | [], name, values, nested, tables, done, _, _ => by
    rw [writeRows, ofRows]
    simp [Except.map]
  | r :: rest, name, values, nested, tables, done, hall, hfresh => by
    obtain ⟨putBack, happend, hput⟩ := appendRow_withRows values nested done hfresh
    obtain ⟨hr, hd⟩ := hall r List.mem_cons_self
    rw [writeRows, ofRows, happend]
    simp only [write_operations r hr hd]
    cases ofRecord r with
    | error e => rfl
    | ok n =>
      simp only [hput]
      rw [writeRows_operations rest values nested _ (fun x hx => hall x (List.mem_cons_of_mem _ hx)) hfresh]
      cases ofRows rest <;> simp [Except.map]

end

/-! ## Reading -/

theorem rows_operations (n : NativeRecord) (table : String) : NativeRecord.operations.rows n table = n.rows table := by
  have hall : ∀ rows : List NativeRecord, (List.range rows.length).filterMap (fun i => rows[i]?) = rows := by
    intro rows
    induction rows with
    | nil => rfl
    | cons r rest ih =>
      rw [List.length_cons, List.range_succ_eq_map, List.filterMap_cons, List.filterMap_map]
      exact congrArg (r :: ·) ih
  exact hall (n.rows table)

/-- A view shows under a member what the native record holds there. -/
def Shows (v n : NativeRecord) : Member Shape → Prop
  | .field decl => v.values.lookup decl.name = n.values.lookup decl.name
  | .nested name _ shape => v.nested.lookup name = (n.nested.lookup name).map (NativeRecord.operations.view shape)
  | .table name _ row => v.rows name = (n.rows name).map (NativeRecord.operations.view row)

theorem viewMember_names (m : Member Shape) (n : NativeRecord) :
    (∀ k ∈ (NativeRecord.operations.viewMember m n).1.map Prod.fst, k = m.name) ∧
      ∀ k ∈ (NativeRecord.operations.viewMember m n).2.map Prod.fst, k = m.name := by
  cases m with
  | field decl => simp [viewMember]
  | nested name description shape =>
    rw [viewMember]
    cases NativeRecord.operations.structure? n name <;> simp [Member.name]
  | table name description row => simp [viewMember, Member.name]

theorem viewMembers_eq (ms : List (Member Shape)) (n : NativeRecord) : NativeRecord.operations.viewMembers ms n =
    (ms.flatMap fun m => (NativeRecord.operations.viewMember m n).1,
      ms.flatMap fun m => (NativeRecord.operations.viewMember m n).2) := by
  induction ms with
  | nil => rw [viewMembers, List.flatMap_nil, List.flatMap_nil]
  | cons m rest ih => rw [viewMembers, ih, List.flatMap_cons, List.flatMap_cons]

/-- Members that are told apart are shown one by one. -/
theorem shows_view {shape : Shape} (hd : shape.Distinct) (n : NativeRecord) :
    ∀ m ∈ shape.members, Shows (NativeRecord.operations.view shape n) n m := by
  have hnd := hd.members
  cases shape with
  | mk name description ms =>
    intro m hm
    have hnested := Lookup.lookup_flatMap (f := Member.name) (fun m _ => (viewMember_names m n).1) hnd hm
    have htables := Lookup.lookup_flatMap (f := Member.name) (fun m _ => (viewMember_names m n).2) hnd hm
    rw [view, viewMembers_eq]
    cases m with
    | field decl =>
      have hvalue := Lookup.lookup_filterMap (f := Member.name)
        (g := fun m => m.field?.bind fun decl => n.values.lookup decl.name) hnd hm
      refine Eq.trans (congrArg (List.lookup decl.name) ?_) hvalue
      refine List.filterMap_congr fun m _ => ?_
      cases m <;> rfl
    | nested name description shape =>
      refine hnested.trans ?_
      rw [viewMember]
      show List.lookup name _ = (n.nested.lookup name).map _
      cases hheld : n.nested.lookup name with
      | none =>
        have hnone : NativeRecord.operations.structure? n name = none := hheld
        rw [hnone]
        rfl
      | some inner =>
        have hsome : NativeRecord.operations.structure? n name = some inner := hheld
        simp [hsome]
    | table name description row =>
      refine (congrArg (fun found => found.getD []) htables).trans ?_
      rw [viewMember]
      simp [rows_operations, Member.name]

mutual

/-- A record is filled from what a structure shows as from the structure. -/
theorem fill_view : ∀ (shape : Shape), shape.Distinct → ∀ (target : Record) (n : NativeRecord),
    Native.fill shape target (NativeRecord.operations.view shape n) = Native.fill shape target n
  | .mk name description ms, hd, target, n => by
    rw [Native.fill, Native.fill]
    exact fillMembers_view ms (shows_view hd n) (fun m hm t ht => hd.below hm ht)

theorem fillMembers_view : ∀ (ms : List (Member Shape)) {i : Nat} {target : Record} {v n : NativeRecord},
    (∀ m ∈ ms, Shows v n m) → (∀ m ∈ ms, ∀ t, m.reference? = some t → t.Distinct) →
    Native.fillMembers i ms target v = Native.fillMembers i ms target n
  | [], i, target, v, n, _, _ => by rw [Native.fillMembers, Native.fillMembers]
  | m :: rest, i, target, v, n, hv, hd => by
    rw [Native.fillMembers, Native.fillMembers,
      fillMember_view m (hv m List.mem_cons_self) (hd m List.mem_cons_self)]
    cases Native.fillMember i m target n with
    | mk target' stopped =>
      cases stopped with
      | some e => rfl
      | none =>
        exact fillMembers_view rest (fun m hm => hv m (List.mem_cons_of_mem _ hm))
          (fun m hm => hd m (List.mem_cons_of_mem _ hm))

theorem fillMember_view : ∀ (m : Member Shape) {i : Nat} {target : Record} {v n : NativeRecord}, Shows v n m →
    (∀ t, m.reference? = some t → t.Distinct) → Native.fillMember i m target v = Native.fillMember i m target n
  | .field decl, i, target, v, n, hv, _ => by
    have hlookup : v.values.lookup decl.name = n.values.lookup decl.name := hv
    rw [Native.fillMember, Native.fillMember, Native.decodeField, Native.decodeField, hlookup]
  | .nested name description shape, i, target, v, n, hv, hd => by
    have hlookup : v.nested.lookup name = (n.nested.lookup name).map (NativeRecord.operations.view shape) := hv
    rw [Native.fillMember, Native.fillMember, hlookup]
    cases n.nested.lookup name with
    | none => rfl
    | some inner =>
      simp only [Option.map_some]
      rw [fill_view shape (hd shape rfl)]
  | .table name description row, i, target, v, n, hv, hd => by
    have hrows : v.rows name = (n.rows name).map (NativeRecord.operations.view row) := hv
    have hrow : ∀ done x, Native.fillRow target.function row done (NativeRecord.operations.view row x) =
        Native.fillRow target.function row done x := by
      rintro ⟨rows, _ | e⟩ x
      · rw [Native.fillRow, Native.fillRow, fill_view row (hd row rfl)]
      · rfl
    rw [Native.fillMember_table, Native.fillMember_table, hrows, List.foldl_map]
    simp only [hrow]

end

theorem read_operations (target : Record) (hd : target.shape.Distinct) (n : NativeRecord) :
    NativeRecord.operations.read target n = Native.readRecord target n := fill_view target.shape hd target n

end NativeStructure

/-- A call through the port of the connector in memory is a call of the connector. -/
theorem Connector.port_call {request : Record} (hr : request.Sound) (hd : request.shape.Distinct)
    (hresponse : request.function.response.Distinct) (c : Connector) :
    Connector.port.call request c = (c.call request, c) := by
  have hwrite := NativeStructure.write_operations request hr hd
  have hread := NativeStructure.read_operations (.response request.function) hresponse
  rw [Port.call, Connector.call]
  split
  · rfl
  · rw [Port.run]
    cases hcreate : c.createRequest request.function.name with
    | error e =>
      have hport : Connector.port.createRequest request.function.name c = (.error e, c) := congrArg (·, c) hcreate
      simp only [hport]
    | ok native =>
      have hport : Connector.port.createRequest request.function.name c = (.ok native, c) := congrArg (·, c) hcreate
      obtain ⟨-, -, rfl⟩ := Outcome.map_eq_ok.mp hcreate
      have hwritten : Connector.port.native.write request .empty = Native.ofRecord request := hwrite
      simp only [hport, hwritten]
      cases Native.ofRecord request with
      | error e => rfl
      | ok native =>
        cases hexecute : c.execute request.function.name native with
        | error e =>
          have hport' : Connector.port.execute request.function.name native c = (.error e, c) := congrArg (·, c) hexecute
          simp only [hport', hexecute]
        | ok answer =>
          have hport' : Connector.port.execute request.function.name native c = (.ok answer, c) := congrArg (·, c) hexecute
          have hfilled : Connector.port.native.read (.response request.function) answer =
              Native.readRecord (.response request.function) answer := hread answer
          simp only [hport', hexecute, hfilled]
          cases Native.readRecord (.response request.function) answer with
          | mk response stopped => cases stopped <;> rfl

end DocWire
