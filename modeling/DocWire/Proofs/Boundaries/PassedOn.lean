/-
  DocWire.Proofs.Boundaries.PassedOn — what was accepted can be passed on.

  The rule is that a reader refuses what could not be written again. A value that a reader sets was decoded from a wire
  string, and so it has a wire string (`Coercion.exists_encode`); readers set no others, and what is new has no values.
  So every document and every parameter set that was read is `Encodable`: each value that is set, in any segment or
  record of it, has a wire string. This is kept while it is read (`Document.encodable_kept`, `Record.encodable_kept`).

  Writers fail at a value without a wire string and nowhere else, so what is encodable can be written as XML, whatever
  the options, and as native objects. And of what a validation reports, values without wire strings cannot occur, nor
  children that are too many: values that an enumeration does not allow, and missing children, are left
  (`accepted_passedOn`).
-/

import DocWire.Document.Validate
import DocWire.Parameters.Validate
import DocWire.Proofs.Boundaries.Written
import DocWire.Proofs.Connector.Parameters

namespace DocWire

/-! ## Documents -/

namespace Document

variable {d d' : Document}

/-- Each value that is set in a document has a wire string. -/
def Encodable (d : Document) : Prop := ∀ i s, d.segment? i = some s → ∀ e ∈ s.entries, Encodes e

theorem Encodable.putFields (h : d.Encodable) {id : Nat} {s : Segment} {fields : List (Option Value)}
    (hs : d.segment? id = some s) (hfields : ∀ e ∈ ({ s with fields := fields } : Segment).entries, Encodes e) :
    (d.putFields id fields).Encodable := by
  intro i t ht e he
  rw [segment?_putFields] at ht
  obtain ⟨old, hold, rfl⟩ := Option.map_eq_some_iff.mp ht
  by_cases hi : i = id
  · subst hi
    obtain rfl : old = s := Option.some.inj (hold.symm.trans hs)
    simp only [if_true] at he
    exact hfields e he
  · simp only [if_neg hi] at he
    exact h i old hold e he

theorem Encodable.setWire (h : d.Encodable) {id : Nat} {name text : String} (hok : d.setWire id name text = .ok d') :
    d'.Encodable := by
  obtain ⟨s, i, own, value?, hs, hi, hv, rfl⟩ := changeField_eq_ok hok
  refine h.putFields hs ?_
  rintro ⟨decl, v⟩ he
  rcases Segment.mem_entries_set he with ⟨hdecl, rfl⟩ | hold
  · rw [hi, Option.some_inj] at hdecl
    subst hdecl
    obtain ⟨wire, hwire⟩ := Coercion.exists_encode (Outcome.mapError_eq_ok.mp hv)
    exact encodes_of_ok hwire
  · exact h id s hs _ hold

/-- A segment that is added has no values yet. -/
theorem Encodable.addChild (h : d.Encodable) {id c : Nat} {name : String} (hok : d.addChild id name = .ok (d', c)) :
    d'.Encodable := by
  obtain ⟨s, slot, type, hs, -, -, rfl, -⟩ := addChild_eq_ok hok
  intro i t ht e he
  rcases segment?_append_cases (segment?_lt hs) ht with ⟨-, rfl⟩ | ⟨old, hold, rfl⟩
  · rw [Segment.entries_blank] at he
    cases he
  · exact h i old hold e he

theorem encodable_kept (m : MessageType) : Kept m Encodable where
  new creation := by
    intro i s hs e he
    obtain ⟨-, rfl⟩ := segment?_new hs
    rw [Segment.entries_blank] at he
    cases he
  header header h := h
  setWire h hok := h.setWire hok
  addChild h hok := h.addChild hok
  putDecoded h hs hfields := by
    refine h.putFields hs ?_
    rintro ⟨decl, v⟩ he
    obtain ⟨i, hdecl, hv⟩ := Segment.mem_entries.mp he
    obtain ⟨text, hdecode⟩ := Native.decodeField_eq_ok (Pairing.getElem? hfields hdecl hv)
    obtain ⟨wire, hwire⟩ := Coercion.exists_encode hdecode
    exact encodes_of_ok hwire

end Document

/-! ## Parameter sets -/

namespace Record

variable {r : Record} {i : Nat} {m : Member Shape} {slot : Slot Record}

/-- Each value that is set in a parameter set has a wire string, at any depth. -/
def Encodable (r : Record) : Prop := ∀ x ∈ r.preorder, ∀ e ∈ x.entries, Encodes e

theorem entries_putSlot (hm : r.shape.members[i]? = some m) {e : FieldDecl × Value} (he : e ∈ (r.putSlot i slot).entries) :
    entry? (m, slot) = some e ∨ e ∈ r.entries := by
  obtain ⟨⟨m', slot'⟩, hmem, hentry⟩ := List.mem_filterMap.mp he
  obtain ⟨j, hj⟩ := List.getElem?_of_mem hmem
  obtain ⟨hmember, hput⟩ : r.shape.members[j]? = some m' ∧ (r.slots.set i slot)[j]? = some slot' :=
    List.getElem?_zip_eq_some.mp hj
  rw [List.getElem?_set] at hput
  split at hput
  · rename_i hij
    subst hij
    rw [hm, Option.some_inj] at hmember
    subst hmember
    split at hput
    · cases hput
      exact .inl hentry
    · cases hput
  · exact .inr (List.mem_filterMap.mpr ⟨_, List.mem_of_getElem? (List.getElem?_zip_eq_some.mpr ⟨hmember, hput⟩), hentry⟩)

/-- What is put into a slot is a field with a wire string, or has only such fields below it. -/
theorem Encodable.putSlot (h : r.Encodable) (hm : r.shape.members[i]? = some m)
    (hown : ∀ e, entry? (m, slot) = some e → Encodes e) (hbelow : ∀ x ∈ preorderSlot slot, ∀ e ∈ x.entries, Encodes e) :
    (r.putSlot i slot).Encodable := by
  intro x hx e he
  rcases mem_preorder.mp hx with rfl | ⟨slot', hslot, hinner⟩
  · rcases entries_putSlot hm he with hentry | hold
    · exact hown e hentry
    · exact h r (mem_preorder.mpr (.inl rfl)) e hold
  · rcases List.mem_or_eq_of_mem_set hslot with hold | rfl
    · exact h x (mem_preorder.mpr (.inr ⟨slot', hold, hinner⟩)) e he
    · exact hbelow x hinner e he

theorem blank_encodable (f : Function) (shape : Shape) : (blank f shape).Encodable := by
  have habsent : ∀ slot ∈ (blank f shape).slots, slot = .absent := by
    intro slot hslot
    obtain ⟨m, -, rfl⟩ := List.mem_map.mp hslot
    rfl
  intro x hx e he
  rcases mem_preorder.mp hx with rfl | ⟨slot, hslot, hx⟩
  · obtain ⟨⟨m, slot⟩, hmem, hentry⟩ := List.mem_filterMap.mp he
    have hnone := (entry?_eq_some hentry).2
    rw [habsent slot (List.of_mem_zip hmem).2] at hnone
    cases hnone
  · rw [habsent slot hslot] at hx
    cases hx

/-- What a slot holds is in the record. -/
theorem mem_slots_of_slotAt (h : r.slotAt i = slot) (hne : slot ≠ .absent) : slot ∈ r.slots := by
  unfold Record.slotAt at h
  cases hi : r.slots[i]? with
  | none =>
    rw [hi] at h
    exact absurd h.symm hne
  | some held =>
    rw [hi] at h
    exact h ▸ List.mem_of_getElem? hi

theorem encodable_kept : Kept fun r => r.Sound ∧ r.Encodable where
  blank f shape := ⟨blank_sound f shape, blank_encodable f shape⟩
  nestedAt := by
    rintro r inner i declared description shape ⟨hsound, henc⟩ hm hslot
    obtain ⟨hf, hs, hinner⟩ := sound_kept.nestedAt hsound hm hslot
    have hmem := mem_slots_of_slotAt hslot (by intro h; cases h)
    exact ⟨hf, hs, hinner, fun x hx => henc x (mem_preorder.mpr (.inr ⟨_, hmem, hx⟩))⟩
  rowsAt := by
    rintro r rows i declared description row ⟨hsound, henc⟩ hm hslot y hy
    obtain ⟨hf, hs, hrow⟩ := sound_kept.rowsAt hsound hm hslot y hy
    have hmem := mem_slots_of_slotAt hslot (by intro h; cases h)
    exact ⟨hf, hs, hrow, fun x hx => henc x (mem_preorder.mpr (.inr ⟨_, hmem, mem_preorderRows.mpr ⟨y, hy, hx⟩⟩))⟩
  unset := by
    rintro r i decl ⟨hsound, henc⟩ hm
    refine ⟨sound_kept.unset hsound hm, henc.putSlot hm (fun e he => ?_) (fun x hx => ?_)⟩
    · cases he
    · cases hx
  putValue := by
    rintro r i decl text v ⟨hsound, henc⟩ hm hv
    refine ⟨sound_kept.putValue hsound hm hv, henc.putSlot hm (fun e he => ?_) (fun x hx => ?_)⟩
    · cases he
      obtain ⟨wire, hwire⟩ := Coercion.exists_encode hv
      exact encodes_of_ok hwire
    · cases hx
  putNested := by
    rintro r inner i declared description shape ⟨hsound, henc⟩ hm ⟨hf, hs, hinner, hencInner⟩
    refine ⟨sound_kept.putNested hsound hm ⟨hf, hs, hinner⟩, henc.putSlot hm (fun e he => ?_) hencInner⟩
    cases he
  putTable := by
    rintro r rows i declared description row ⟨hsound, henc⟩ hm hrows
    refine ⟨sound_kept.putTable hsound hm fun x hx => ?_, henc.putSlot hm (fun e he => ?_) (fun x hx => ?_)⟩
    · obtain ⟨hf, hs, hx, -⟩ := hrows x hx
      exact ⟨hf, hs, hx⟩
    · cases he
    · obtain ⟨y, hy, hx⟩ := mem_preorderRows.mp hx
      exact (hrows y hy).2.2.2 x hx

end Record

/-! ## Violations -/

/-- A value that an enumeration does not allow, or a child that is missing. -/
def ViolationCause.Tolerable : ViolationCause → Prop
  | .notAllowed _ _ _ => True
  | .tooFew _ _ _ => True
  | .notRepresentable _ _ => False
  | .tooMany _ _ _ => False

/-- With values that have wire strings nothing can be wrong but that an enumeration does not allow them. -/
theorem fieldViolations_notAllowed {path : String} {entries : List (FieldDecl × Value)} (h : ∀ e ∈ entries, Encodes e) :
    ∀ v ∈ fieldViolations path entries, ∃ field wire values, v.cause = .notAllowed field wire values := by
  intro v hv
  obtain ⟨⟨decl, value⟩, he, hcause⟩ := List.mem_filterMap.mp hv
  obtain ⟨cause, hfield, rfl⟩ := Option.map_eq_some_iff.mp hcause
  have hencode : Coercion.encode decl.format value = .ok (wireOf (decl, value)) := h _ he
  simp only [fieldCause?, hencode] at hfield
  split at hfield
  · cases hfield
  · cases hfield
    exact ⟨_, _, _, rfl⟩

theorem ChildSlot.countCauses_tolerable {slot : ChildSlot} {count : Nat} (h : count ≤ slot.maxOccurrence) :
    ∀ cause ∈ slot.countCauses count, cause.Tolerable := by
  intro cause hcause
  rcases List.mem_append.mp hcause with hfew | hmany
  · split at hfew
    · rw [List.mem_singleton.mp hfew]
      exact trivial
    · cases hfew
  · rw [if_neg (Nat.not_lt.mpr h)] at hmany
    cases hmany

namespace Document

theorem countOf_eq (ts : List (Tree Segment)) (segmentType : String) :
    countOf ts segmentType = (Tree.names ts).count segmentType := by
  rw [countOf, Tree.names, List.count_eq_countP, List.countP_map, List.countP_eq_length_filter]
  rfl

mutual

theorem violationsBelow_tolerable {m : MessageType} : ∀ (t : Tree Segment) {path : String}, t.Fits m →
    (∀ s ∈ t.preorder, ∀ e ∈ s.entries, Encodes e) → ∀ v ∈ violationsBelow path t, v.cause.Tolerable
  | .node s children, path, ⟨_, _, hlimits, hall⟩, henc, v, hv => by
    rcases List.mem_append.mp hv with hown | hbelow
    · rcases List.mem_append.mp hown with hfield | hcount
      · obtain ⟨field, wire, values, hcause⟩ := fieldViolations_notAllowed (henc s List.mem_cons_self) v hfield
        rw [hcause]
        exact trivial
      · obtain ⟨slot, hslot, hv⟩ := List.mem_flatMap.mp hcount
        obtain ⟨cause, hcause, rfl⟩ := List.mem_map.mp hv
        exact ChildSlot.countCauses_tolerable (countOf_eq children _ ▸ hlimits slot hslot) cause hcause
    · exact violationsOfAll_tolerable children hall (fun s hs => henc s (List.mem_cons_of_mem _ hs)) v hbelow

theorem violationsOfAll_tolerable {m : MessageType} : ∀ (ts : List (Tree Segment)) {path : String} {before : List String}
    {type : SegmentType} {level : Nat}, Tree.AllFit m type level ts →
    (∀ s ∈ Tree.preorderAll ts, ∀ e ∈ s.entries, Encodes e) → ∀ v ∈ violationsOfAll path before ts, v.cause.Tolerable
  | [], _, _, _, _, _, _, v, hv => by cases hv
  | t :: rest, path, before, type, level, ⟨_, hfirst, hrest⟩, henc, v, hv => by
    rcases List.mem_append.mp hv with hv | hv
    · exact violationsBelow_tolerable t hfirst (fun s hs => henc s (List.mem_append_left _ hs)) v hv
    · exact violationsOfAll_tolerable rest hrest (fun s hs => henc s (List.mem_append_right _ hs)) v hv

end

end Document

namespace Record

mutual

theorem violationsBelow_notAllowed : ∀ (r : Record) {path : String}, r.Encodable →
    ∀ v ∈ violationsBelow path r, ∃ field wire values, v.cause = .notAllowed field wire values
  | .mk f shape slots, path, h, v, hv => by
    rcases List.mem_append.mp hv with hfield | hbelow
    · exact fieldViolations_notAllowed (h _ List.mem_cons_self) v hfield
    · exact violationsOfSlots_notAllowed slots (fun x hx => h x (List.mem_cons_of_mem _ hx)) v hbelow

theorem violationsOfSlots_notAllowed : ∀ (slots : List (Slot Record)) {path : String} {names : List String},
    (∀ x ∈ preorderSlots slots, ∀ e ∈ x.entries, Encodes e) →
    ∀ v ∈ violationsOfSlots path names slots, ∃ field wire values, v.cause = .notAllowed field wire values
  | [], _, _, _, v, hv => by cases hv
  | slot :: rest, path, names, h, v, hv => by
    rcases List.mem_append.mp hv with hv | hv
    · exact violationsOfSlot_notAllowed slot (fun x hx => h x (List.mem_append_left _ hx)) v hv
    · exact violationsOfSlots_notAllowed rest (fun x hx => h x (List.mem_append_right _ hx)) v hv

theorem violationsOfSlot_notAllowed : ∀ (slot : Slot Record) {path : String},
    (∀ x ∈ preorderSlot slot, ∀ e ∈ x.entries, Encodes e) →
    ∀ v ∈ violationsOfSlot path slot, ∃ field wire values, v.cause = .notAllowed field wire values
  | .absent, _, _, v, hv => by cases hv
  | .value _, _, _, v, hv => by cases hv
  | .nested r, path, h, v, hv => violationsBelow_notAllowed r h v hv
  | .table rows, path, h, v, hv => violationsOfRows_notAllowed rows h v hv

theorem violationsOfRows_notAllowed : ∀ (rows : List Record) {path : String} {index : Nat},
    (∀ x ∈ preorderRows rows, ∀ e ∈ x.entries, Encodes e) →
    ∀ v ∈ violationsOfRows path index rows, ∃ field wire values, v.cause = .notAllowed field wire values
  | [], _, _, _, v, hv => by cases hv
  | r :: rest, path, index, h, v, hv => by
    rcases List.mem_append.mp hv with hv | hv
    · exact violationsBelow_notAllowed r (fun x hx => h x (List.mem_append_left _ hx)) v hv
    · exact violationsOfRows_notAllowed rest (fun x hx => h x (List.mem_append_right _ hx)) v hv

end

end Record

/-! ## What was accepted -/

namespace Boundaries

/-- A document that can be passed on: it is written as XML, whatever the options, and as a native document, and nothing
is wrong with it but values that an enumeration does not allow and children that are missing. -/
structure DocumentPassedOn (d : Document) : Prop where
  text (o : Options) : ∃ text, Xml.documentText o d = .ok text
  native : ∃ n, Native.ofDocument d = .ok n
  violations : ∀ v ∈ d.validate, v.cause.Tolerable

/-- A list that can be passed on, with each of its documents. -/
structure BatchPassedOn (b : Batch) : Prop where
  text (o : Options) : ∃ text, Xml.batchText o b = .ok text
  native : ∃ ns, Native.ofBatch b = .ok ns
  documents : ∀ d ∈ b.documents, DocumentPassedOn d

/-- A parameter set that can be passed on; in one, nothing is ever missing. -/
structure RecordPassedOn (r : Record) : Prop where
  text (o : Options) : ∃ text, Xml.recordText o r = .ok text
  native : ∃ n, Native.ofRecord r = .ok n
  violations : ∀ v ∈ r.validate, ∃ field wire values, v.cause = .notAllowed field wire values

theorem encodable_documentEntries {d : Document} (hd : d.Sound) (h : d.Encodable) : ∀ e ∈ documentEntries d, Encodes e := by
  intro e he
  obtain ⟨i, s, hs, he⟩ := (mem_documentEntries hd).mp he
  exact h i s hs e he

theorem documentPassedOn {d : Document} (hm : d.schema.Resolved) (hd : d.Sound) (h : d.Encodable) : DocumentPassedOn d := by
  have hentries : ∀ e ∈ d.tree.preorder.flatMap Segment.entries, Encodes e := encodable_documentEntries hd h
  have hfits := hd.tree_fits.1
  have hagree : Agree (d.tree.preorder.flatMap Segment.entries)
      (SameSegment (messagePrefix d.key.basicType) "rootSegment" d.tree)
      (Xml.encodeRoot (messagePrefix d.key.basicType) "/" d.tree) (Native.ofSegment d.tree) := root_agree hm hfits
  obtain ⟨root, hroot⟩ := hagree.succeed_iff.1.mpr hentries
  obtain ⟨n, hn⟩ := hagree.succeed_iff.2.mpr hentries
  refine ⟨?_, ?_, ?_⟩
  · intro o
    rw [Xml.documentText, Xml.encodeDocument, Xml.encodeDocumentAs, hroot]
    exact ⟨_, rfl⟩
  · rw [Native.ofDocument, hn]
    exact ⟨_, rfl⟩
  · refine Document.violationsBelow_tolerable d.tree hfits ?_
    intro s hs e he
    exact hentries e (List.mem_flatMap.mpr ⟨s, hs, he⟩)

theorem batchPassedOn {b : Batch} (hm : b.schema.Resolved)
    (h : ∀ d ∈ b.documents, (d.schema = b.schema ∧ d.Sound) ∧ d.Encodable) : BatchPassedOn b := by
  have hds : ∀ d ∈ b.documents, d.schema.Resolved ∧ d.Sound := by
    intro d hd
    obtain ⟨⟨hschema, hsound⟩, -⟩ := h d hd
    exact ⟨hschema ▸ hm, hsound⟩
  have hentries : ∀ e ∈ b.documents.flatMap documentEntries, Encodes e := by
    intro e he
    obtain ⟨d, hd, he⟩ := List.mem_flatMap.mp he
    exact encodable_documentEntries (hds d hd).2 (h d hd).2 e he
  obtain ⟨⟨ws, hws⟩, hns⟩ := (documents_agree hds 0).succeed_iff.imp (fun h => h.mpr hentries) (fun h => h.mpr hentries)
  refine ⟨?_, hns, ?_⟩
  · intro o
    rw [Xml.batchText, Xml.encodeBatch, hws]
    exact ⟨_, rfl⟩
  · intro d hd
    exact documentPassedOn (hds d hd).1 (hds d hd).2 (h d hd).2

theorem recordPassedOn {r : Record} (hd : r.shape.Distinct) (hr : r.Sound) (h : r.Encodable) : RecordPassedOn r := by
  have hentries : ∀ e ∈ r.preorder.flatMap Record.entries, Encodes e := by
    intro e he
    obtain ⟨x, hx, he⟩ := List.mem_flatMap.mp he
    exact h x hx e he
  have hagree (o : Options) : Agree (r.preorder.flatMap Record.entries)
      (SameRecord (messagePrefix r.function.name) ((Xml.functionNamespaces o r.function.name).map Prod.fst)
        (Options.rfcPrefix ++ ":" ++ r.name) r) (Xml.encodeRecord o r) (Native.ofRecord r) := record_agree r _ hr hd
  refine ⟨?_, (hagree {}).succeed_iff.2.mpr hentries, Record.violationsBelow_notAllowed r h⟩
  intro o
  obtain ⟨w, hw⟩ := (hagree o).succeed_iff.1.mpr hentries
  rw [Xml.recordText, hw]
  exact ⟨_, rfl⟩

variable {schema : Definition} {r : Registry}

/-- Everything that is accepted can be passed on. What is read under a compiled registry, be it a document or a list from
any text, a document from any native document, a parameter set from any text, or a request or a response that is filled
from any native record, is written again at both boundaries, and has no value that cannot be represented and no child too
many. -/
theorem accepted_passedOn (hr : Registry.compile schema = .ok r) :
    (∀ o creation text d, Xml.documentOfText r o creation text = .ok d → DocumentPassedOn d) ∧
    (∀ o creation text b, Xml.batchOfText r o creation text = .ok b → BatchPassedOn b) ∧
    (∀ m ∈ r.messageTypes, ∀ creation n d, Native.readDocument m creation n = .ok d → DocumentPassedOn d) ∧
    (∀ o text x, Xml.recordOfText r o text = .ok x → RecordPassedOn x) ∧
    ∀ f ∈ r.functions, ∀ start, start = Record.request f ∨ start = Record.response f →
      ∀ n x, Native.readRecord start n = (x, none) → RecordPassedOn x := by
  have hresolved : ∀ m ∈ r.messageTypes, m.Resolved := fun m => Registry.resolved hr
  refine ⟨?_, ?_, ?_, ?_, ?_⟩
  · intro o creation text d hok
    obtain ⟨hm, hsound⟩ := Xml.documentOfText_sound hresolved hok
    obtain ⟨-, -, henc⟩ := Xml.documentOfText_keeps (fun m _ => Document.encodable_kept m) hok
    exact documentPassedOn (hresolved _ hm) hsound henc
  · intro o creation text b hok
    obtain ⟨hm, hsound⟩ := Xml.batchOfText_sound hresolved hok
    obtain ⟨-, henc⟩ := Xml.batchOfText_keeps (fun m _ => Document.encodable_kept m) hok
    exact batchPassedOn (hresolved _ hm) fun d hd => ⟨hsound d hd, henc d hd⟩
  · intro m hm creation n d hok
    obtain ⟨rfl, hsound⟩ := Native.readDocument_sound (hresolved m hm) hok
    exact documentPassedOn (hresolved _ hm) hsound (Native.readDocument_keeps (Document.encodable_kept _) hok)
  · intro o text x hok
    obtain ⟨hf, hshape, hsound, henc⟩ := Xml.recordOfText_keeps Record.encodable_kept hok
    have hdistinct := (Record.Arises.decoded o text x hok).distinct hr
    exact recordPassedOn hdistinct hsound henc
  · intro f hf start hstart n x hok
    obtain rfl : (Native.readRecord start n).1 = x := congrArg Prod.fst hok
    obtain ⟨harises, hblank⟩ : Record.Arises r start ∧ start.Sound ∧ start.Encodable := by
      rcases hstart with rfl | rfl
      · exact ⟨.made _ (.request f hf), Record.encodable_kept.blank _ _⟩
      · exact ⟨.made _ (.response f hf), Record.encodable_kept.blank _ _⟩
    have hdistinct := (Record.Arises.filled start n harises).distinct hr
    obtain ⟨-, -, hsound, henc⟩ := Native.fill_keeps Record.encodable_kept start.shape (n := n) hblank rfl
    exact recordPassedOn hdistinct hsound henc

/-- The least that is written around a message. -/
def bare : Options := { base := "", indent := 0, declaration := false }

theorem accepted_passedOn_orders :
    (∃ text d, Xml.documentText {} Document.twoItems = .ok text ∧
      Xml.documentOfText Document.orders {} Document.twoItems.creation text = .ok d ∧ DocumentPassedOn d) ∧
    (∃ text b, Xml.batchText {} Xml.twoOrders = .ok text ∧
      Xml.batchOfText Document.orders {} Document.twoItems.creation text = .ok b ∧ BatchPassedOn b) ∧
    (∃ n d, Native.ofDocument Document.twoItems = .ok n ∧
      Native.readDocument Document.orderSchema Document.twoItems.creation n = .ok d ∧ DocumentPassedOn d) ∧
    (∃ text x, Xml.recordText bare Native.plainRequest = .ok text ∧ Xml.recordOfText Xml.orderCalls bare text = .ok x ∧
      RecordPassedOn x) ∧
    ∃ x, Native.readRecord (.request Xml.orderFunction) (.mk [("ID", "4711")] [] []) = (x, none) ∧ RecordPassedOn x := by
  obtain ⟨hdocument, hbatch, hnative, -⟩ := accepted_passedOn Document.orders_compiled
  obtain ⟨-, -, -, hrecord, hfilled⟩ := accepted_passedOn Xml.orderCalls_compiled
  have hsafe : Document.orderSchema.XmlSafe := by decide +kernel
  have hbase : ReferenceFree ({} : Options).base := by decide +kernel
  obtain ⟨hm, hsound⟩ := Document.twoItems_reach.sound Document.orders_compiled
  obtain ⟨hmAll, hsoundAll⟩ := Xml.twoOrders_reach.documents Document.orders_compiled
  obtain ⟨text, htext⟩ := Outcome.exists_ok (x := Xml.documentText {} Document.twoItems) (by decide +kernel)
  have hsame : ({} : Options).base = ({} : Options).base := rfl
  obtain ⟨d, hd, -⟩ := Xml.documentOfText_documentText Document.orders_compiled hm hsound hsafe hbase hsame
    Document.twoItems.creation htext
  obtain ⟨texts, htexts⟩ := Outcome.exists_ok (x := Xml.batchText {} Xml.twoOrders) (by decide +kernel)
  obtain ⟨b, hb, -⟩ := Xml.batchOfText_batchText Document.orders_compiled hmAll hsoundAll hsafe hbase hsame
    Document.twoItems.creation htexts
  obtain ⟨n, hn⟩ := Outcome.exists_ok (x := Native.ofDocument Document.twoItems) (by decide +kernel)
  obtain ⟨d', hd', -⟩ := Native.readDocument_encoded (Registry.resolved Document.orders_compiled hm) hsound hn
    Document.twoItems.creation
  obtain ⟨call, x, hcall, hx, -⟩ := Outcome.exists_ok_ok (x := Xml.recordText bare Native.plainRequest)
    (f := Xml.recordOfText Xml.orderCalls bare) (p := fun _ => true) (by decide +kernel)
  have hnone : (Native.readRecord (.request Xml.orderFunction) (.mk [("ID", "4711")] [] [])).2 = none := by decide +kernel
  have hall : Native.readRecord (.request Xml.orderFunction) (.mk [("ID", "4711")] [] []) = (_, none) := Prod.ext rfl hnone
  exact ⟨⟨text, d, htext, hd, hdocument _ _ _ _ hd⟩, ⟨texts, b, htexts, hb, hbatch _ _ _ _ hb⟩,
    ⟨n, d', hn, hd', hnative _ List.mem_cons_self _ _ _ hd'⟩, ⟨call, x, hcall, hx, hrecord _ _ _ hx⟩, _, hall,
    hfilled _ List.mem_cons_self _ (.inl rfl) _ _ hall⟩

end Boundaries

end DocWire
