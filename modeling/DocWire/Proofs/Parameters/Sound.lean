/-
  DocWire.Proofs.Parameters.Sound — what every parameter set keeps.

  A record has one slot for every member of its shape. `Sound` says that each slot holds what its member
  declares, or nothing: a value of the kind of the field, a nested record of the declared shape, rows of the
  declared shape; and that the same is true of every record below. Slots change one at a time, so what an
  operation keeps is told by the slot that it puts (`Sound.putSlot`), and an edit anywhere below a record
  keeps what the edit itself keeps (`Sound.editAt`). Readers only put what they decoded or opened, and what such steps
  keep is said for any property (`Kept`).
-/

import DocWire.Parameters.Record
import DocWire.Proofs.Field.Acceptance
import DocWire.Proofs.Outcome
import DocWire.Proofs.Pairing
import DocWire.Proofs.Schema.Shape

namespace DocWire

namespace Record

mutual

def Sound : Record → Prop
  | .mk f shape slots => SlotsSound f shape.members slots

def SlotsSound (f : Function) : List (Member Shape) → List (Slot Record) → Prop
  | [], [] => True
  | m :: ms, slot :: rest => SlotSound f m slot ∧ SlotsSound f ms rest
  | _, _ => False

def SlotSound (f : Function) : Member Shape → Slot Record → Prop
  | _, .absent => True
  | .field decl, .value v => v.kind = decl.type.kind
  | .nested _ _ shape, .nested r => r.function = f ∧ r.shape = shape ∧ Sound r
  | .table _ _ row, .table rows => RowsSound f row rows
  | _, _ => False

def RowsSound (f : Function) (row : Shape) : List Record → Prop
  | [] => True
  | r :: rest => (r.function = f ∧ r.shape = row ∧ Sound r) ∧ RowsSound f row rest

end

variable {f : Function} {shape row : Shape} {ms : List (Member Shape)} {slots : List (Slot Record)} {r : Record}

/-- A record of a function and a shape that has a property. -/
def Has (P : Record → Prop) (f : Function) (shape : Shape) (r : Record) : Prop := r.function = f ∧ r.shape = shape ∧ P r

/-- A sound record of a function and a shape. -/
def IsOf (f : Function) (shape : Shape) (r : Record) : Prop := r.function = f ∧ r.shape = shape ∧ r.Sound

theorem function_mk : (Record.mk f shape slots).function = f := rfl

theorem slotsSound_iff : SlotsSound f ms slots ↔ List.Forall₂ (SlotSound f) ms slots := by
  induction slots generalizing ms with
  | nil =>
    cases ms with
    | nil => exact iff_of_true trivial .nil
    | cons m ms => exact iff_of_false id fun h => by cases h
  | cons slot rest ih =>
    cases ms with
    | nil => exact iff_of_false id fun h => by cases h
    | cons m ms => rw [SlotsSound, List.forall₂_cons, ih]

theorem rowsSound_iff {rows : List Record} : RowsSound f row rows ↔ ∀ r ∈ rows, IsOf f row r := by
  induction rows with
  | nil => simp [RowsSound]
  | cons r rest ih => rw [RowsSound, ih, List.forall_mem_cons, IsOf]

theorem sound_iff : r.Sound ↔ List.Forall₂ (SlotSound r.function) r.shape.members r.slots := by
  cases r with
  | mk f shape slots => rw [Sound, slotsSound_iff, function, Record.shape, Record.slots]

/-! ## Slots -/

/-- The slot of a member holds what the member declares. -/
theorem Sound.slotAt (h : r.Sound) {i : Nat} {m : Member Shape} (hm : r.shape.members[i]? = some m) :
    SlotSound r.function m (r.slotAt i) := by
  have hall := sound_iff.mp h
  have hlt : i < r.slots.length := by
    rw [← hall.length_eq]
    exact (List.getElem?_eq_some_iff.mp hm).1
  rw [Record.slotAt, List.getElem?_eq_getElem hlt, Option.getD_some]
  exact Pairing.getElem? hall hm (List.getElem?_eq_getElem hlt)

theorem Sound.putSlot (h : r.Sound) {i : Nat} {m : Member Shape} (hm : r.shape.members[i]? = some m)
    {slot : Slot Record} (hs : SlotSound r.function m slot) : (r.putSlot i slot).Sound := by
  have hall := sound_iff.mp h
  refine sound_iff.mpr ?_
  show List.Forall₂ (SlotSound r.function) r.shape.members (r.slots.set i slot)
  refine Pairing.set_right hall fun m' hm' => ?_
  rw [hm, Option.some_inj] at hm'
  exact hm' ▸ hs

theorem blank_sound (f : Function) (shape : Shape) : (blank f shape).Sound := by
  refine sound_iff.mpr ?_
  show List.Forall₂ (SlotSound f) shape.members (shape.members.map fun _ => .absent)
  refine List.forall₂_map_right_iff.mpr (List.forall₂_same.mpr fun m _ => ?_)
  cases m <;> exact trivial

theorem blank_isOf (f : Function) (shape : Shape) : IsOf f shape (blank f shape) := ⟨rfl, rfl, blank_sound f shape⟩

/-! ## Members that are found -/

theorem resolve_eq_ok {name : String} {i : Nat} {m : Member Shape} (h : r.resolve name = .ok (i, m)) :
    r.shape.members[i]? = some m := by
  unfold resolve at h
  split at h
  · cases h
  · split at h
    · cases h
    · rename_i hm
      cases h
      exact hm

/-- A declared member is found under its own name. -/
theorem resolve_declared (hd : r.shape.Distinct) {i : Nat} {m : Member Shape} (hm : r.shape.members[i]? = some m) :
    r.resolve m.name = .ok (i, m) := by
  simp only [resolve, Shape.memberIndex?_declared hd hm, hm]

theorem resolveField_declared (hd : r.shape.Distinct) {i : Nat} {decl : FieldDecl}
    (hm : r.shape.members[i]? = some (.field decl)) : r.resolveField decl.name = .ok (i, decl) := by
  have hfound : r.resolve decl.name = .ok (i, .field decl) := resolve_declared hd hm
  simp only [resolveField, hfound]

theorem resolveNested_declared (hd : r.shape.Distinct) {i : Nat} {name description : String}
    (hm : r.shape.members[i]? = some (.nested name description shape)) : r.resolveNested name = .ok (i, shape) := by
  have hfound : r.resolve name = .ok (i, .nested name description shape) := resolve_declared hd hm
  simp only [resolveNested, hfound]

theorem resolveTable_declared (hd : r.shape.Distinct) {i : Nat} {name description : String}
    (hm : r.shape.members[i]? = some (.table name description row)) : r.resolveTable name = .ok (i, row) := by
  have hfound : r.resolve name = .ok (i, .table name description row) := resolve_declared hd hm
  simp only [resolveTable, hfound]

theorem resolveField_eq_ok {name : String} {i : Nat} {decl : FieldDecl} (h : r.resolveField name = .ok (i, decl)) :
    r.shape.members[i]? = some (.field decl) := by
  unfold resolveField at h
  split at h
  · cases h
  · rename_i hr
    cases h
    exact resolve_eq_ok hr
  · cases h

theorem resolveNested_eq_ok {name : String} {i : Nat} (h : r.resolveNested name = .ok (i, shape)) :
    ∃ declared description, r.shape.members[i]? = some (.nested declared description shape) := by
  unfold resolveNested at h
  split at h
  · cases h
  · rename_i hr
    cases h
    exact ⟨_, _, resolve_eq_ok hr⟩
  · cases h

theorem resolveTable_eq_ok {name : String} {i : Nat} (h : r.resolveTable name = .ok (i, row)) :
    ∃ declared description, r.shape.members[i]? = some (.table declared description row) := by
  unfold resolveTable at h
  split at h
  · cases h
  · rename_i hr
    cases h
    exact ⟨_, _, resolve_eq_ok hr⟩
  · cases h

/-- What is opened is the nested record that is there, or a blank one where none is. -/
theorem openNested_eq_ok {name : String} {i : Nat} {inner : Record} (h : r.openNested name = .ok (i, inner)) :
    ∃ shape, r.resolveNested name = .ok (i, shape) ∧
      (r.slotAt i = .nested inner ∨ (∀ x, r.slotAt i ≠ .nested x) ∧ inner = blank r.function shape) := by
  obtain ⟨⟨j, shape⟩, hr, he⟩ := Outcome.map_eq_ok.mp h
  simp only at he
  split at he
  · rename_i held hheld
    cases he
    exact ⟨shape, hr, .inl hheld⟩
  · rename_i hnone
    cases he
    exact ⟨shape, hr, .inr ⟨hnone, rfl⟩⟩

/-- The rows of a table that is opened are those that are there, or none. -/
theorem openTable_eq_ok {name : String} {i : Nat} {rows : List Record} (h : r.openTable name = .ok (i, row, rows)) :
    r.resolveTable name = .ok (i, row) ∧
      (r.slotAt i = .table rows ∨ (∀ x, r.slotAt i ≠ .table x) ∧ rows = []) := by
  obtain ⟨⟨j, row'⟩, hr, he⟩ := Outcome.map_eq_ok.mp h
  simp only at he
  split at he
  · rename_i held hheld
    cases he
    exact ⟨hr, .inl hheld⟩
  · rename_i hnone
    cases he
    exact ⟨hr, .inr ⟨hnone, rfl⟩⟩

/-! ## What an operation keeps -/

theorem Sound.changeField (h : r.Sound) {name : String} {change : FieldDecl → Except ModelError (Option Value)}
    (hc : ∀ decl v, change decl = .ok (some v) → v.kind = decl.type.kind) {r' : Record}
    (hok : r.changeField name change = .ok r') : IsOf r.function r.shape r' := by
  unfold Record.changeField at hok
  split at hok
  · cases hok
  rename_i i decl hr
  have hm := resolveField_eq_ok hr
  split at hok
  · cases hok
  · rename_i v hv
    cases hok
    exact ⟨rfl, rfl, h.putSlot hm (hc decl v hv)⟩
  · cases hok
    exact ⟨rfl, rfl, h.putSlot hm trivial⟩

/-- A property that parameter sets keep while they are read. Blank records have it, and so have the nested records and
the rows of a record with it. It is kept where a field is left unset or is given a value that was decoded, and where
nested records or rows with it are put in place. -/
structure Kept (P : Record → Prop) : Prop where
  blank (f : Function) (shape : Shape) : P (blank f shape)
  nestedAt {r inner : Record} {i : Nat} {declared description : String} {shape : Shape} : P r →
    r.shape.members[i]? = some (.nested declared description shape) → r.slotAt i = .nested inner →
    Has P r.function shape inner
  rowsAt {r : Record} {rows : List Record} {i : Nat} {declared description : String} {row : Shape} : P r →
    r.shape.members[i]? = some (.table declared description row) → r.slotAt i = .table rows →
    ∀ x ∈ rows, Has P r.function row x
  unset {r : Record} {i : Nat} {decl : FieldDecl} : P r → r.shape.members[i]? = some (.field decl) → P (r.putSlot i .absent)
  putValue {r : Record} {i : Nat} {decl : FieldDecl} {text : String} {v : Value} : P r →
    r.shape.members[i]? = some (.field decl) → Coercion.decodeWire decl.format text = .ok (some v) →
    P (r.putSlot i (.value v))
  putNested {r inner : Record} {i : Nat} {declared description : String} {shape : Shape} : P r →
    r.shape.members[i]? = some (.nested declared description shape) → Has P r.function shape inner →
    P (r.putSlot i (.nested inner))
  putTable {r : Record} {rows : List Record} {i : Nat} {declared description : String} {row : Shape} : P r →
    r.shape.members[i]? = some (.table declared description row) → (∀ x ∈ rows, Has P r.function row x) →
    P (r.putSlot i (.table rows))

section Kept

variable {P : Record → Prop}

theorem Kept.setWire (hk : Kept P) {name text : String} {r' : Record} (h : P r) (hok : r.setWire name text = .ok r') :
    Has P r.function r.shape r' := by
  unfold Record.setWire Record.changeField at hok
  split at hok
  · cases hok
  rename_i i decl hr
  have hm := resolveField_eq_ok hr
  split at hok
  · cases hok
  · rename_i v hv
    cases hok
    exact ⟨rfl, rfl, hk.putValue h hm (Outcome.mapError_eq_ok.mp hv)⟩
  · cases hok
    exact ⟨rfl, rfl, hk.unset h hm⟩

/-- What is opened is of the declared shape, whether it was there or is new. -/
theorem Kept.openNested (hk : Kept P) (h : P r) {name : String} {i : Nat} {inner : Record}
    (hok : r.openNested name = .ok (i, inner)) :
    ∃ declared description shape, r.shape.members[i]? = some (.nested declared description shape) ∧
      Has P r.function shape inner := by
  obtain ⟨shape, hr, hopened⟩ := openNested_eq_ok hok
  obtain ⟨declared, description, hm⟩ := resolveNested_eq_ok hr
  refine ⟨declared, description, shape, hm, ?_⟩
  rcases hopened with hheld | ⟨-, rfl⟩
  · exact hk.nestedAt h hm hheld
  · exact ⟨rfl, rfl, hk.blank _ _⟩

theorem Kept.openTable (hk : Kept P) (h : P r) {name : String} {i : Nat} {rows : List Record}
    (hok : r.openTable name = .ok (i, row, rows)) :
    ∃ declared description, r.shape.members[i]? = some (.table declared description row) ∧
      ∀ x ∈ rows, Has P r.function row x := by
  obtain ⟨hr, hopened⟩ := openTable_eq_ok hok
  obtain ⟨declared, description, hm⟩ := resolveTable_eq_ok hr
  refine ⟨declared, description, hm, ?_⟩
  rcases hopened with hheld | ⟨-, rfl⟩
  · exact hk.rowsAt h hm hheld
  · exact fun x hx => (List.not_mem_nil hx).elim

end Kept

/-- Soundness is kept. -/
theorem sound_kept : Kept Sound where
  blank := blank_sound
  nestedAt h hm hslot := by
    have hheld := h.slotAt hm
    rw [hslot] at hheld
    exact hheld
  rowsAt h hm hslot := by
    have hheld := h.slotAt hm
    rw [hslot] at hheld
    exact rowsSound_iff.mp hheld
  unset h hm := h.putSlot hm trivial
  putValue h hm hv := h.putSlot hm (Coercion.decodeWire_kind hv)
  putNested h hm hi := h.putSlot hm hi
  putTable h hm hr := h.putSlot hm (rowsSound_iff.mpr hr)

theorem Sound.openNested (h : r.Sound) {name : String} {i : Nat} {inner : Record}
    (hok : r.openNested name = .ok (i, inner)) :
    ∃ declared description shape, r.shape.members[i]? = some (.nested declared description shape) ∧
      IsOf r.function shape inner :=
  sound_kept.openNested h hok

theorem Sound.openTable (h : r.Sound) {name : String} {i : Nat} {rows : List Record}
    (hok : r.openTable name = .ok (i, row, rows)) :
    ∃ declared description, r.shape.members[i]? = some (.table declared description row) ∧
      ∀ x ∈ rows, IsOf r.function row x :=
  sound_kept.openTable h hok

theorem Sound.putNested (h : r.Sound) {i : Nat} {declared description : String}
    (hm : r.shape.members[i]? = some (.nested declared description shape)) {inner : Record}
    (hi : IsOf r.function shape inner) : IsOf r.function r.shape (r.putSlot i (.nested inner)) :=
  ⟨rfl, rfl, h.putSlot hm hi⟩

theorem Sound.putTable (h : r.Sound) {i : Nat} {declared description : String}
    (hm : r.shape.members[i]? = some (.table declared description row)) {rows : List Record}
    (hr : ∀ x ∈ rows, IsOf r.function row x) : IsOf r.function r.shape (r.putSlot i (.table rows)) :=
  ⟨rfl, rfl, h.putSlot hm (rowsSound_iff.mpr hr)⟩

theorem Sound.makeNested (h : r.Sound) {name : String} {r' inner : Record} (hok : r.makeNested name = .ok (r', inner)) :
    IsOf r.function r.shape r' := by
  obtain ⟨⟨i, opened⟩, hopen, he⟩ := Outcome.map_eq_ok.mp hok
  cases he
  obtain ⟨declared, description, shape, hm, hi⟩ := h.openNested hopen
  exact h.putNested hm hi

theorem Sound.makeTable (h : r.Sound) {name : String} {r' : Record} {rows : List Record}
    (hok : r.makeTable name = .ok (r', row, rows)) : IsOf r.function r.shape r' := by
  obtain ⟨⟨i, row', opened⟩, hopen, he⟩ := Outcome.map_eq_ok.mp hok
  cases he
  obtain ⟨declared, description, hm, hr⟩ := h.openTable hopen
  exact h.putTable hm hr

theorem Sound.addRow (h : r.Sound) {name : String} {r' : Record} {rows : List Record}
    (hok : r.addRow name = .ok (r', row, rows)) : IsOf r.function r.shape r' := by
  obtain ⟨⟨i, row', opened⟩, hopen, he⟩ := Outcome.map_eq_ok.mp hok
  cases he
  obtain ⟨declared, description, hm, hr⟩ := h.openTable hopen
  refine h.putTable hm fun x hx => ?_
  rcases List.mem_append.mp hx with hx | hx
  · exact hr x hx
  · exact List.mem_singleton.mp hx ▸ blank_isOf _ _

/-- What a change keeps, it keeps wherever it is made below a record. -/
theorem Sound.editAt {α : Type} {change : Record → Record × α}
    (hc : ∀ r : Record, r.Sound → IsOf r.function r.shape (change r).1) (path : List Step) :
    ∀ {r : Record}, r.Sound → IsOf r.function r.shape (r.editAt change path).1 := by
  induction path with
  | nil => exact fun h => hc _ h
  | cons step rest ih =>
    intro r h
    cases step with
    | nested name =>
      rw [Record.editAt]
      split
      · exact ⟨rfl, rfl, h⟩
      · rename_i i inner hopen
        obtain ⟨declared, description, shape, hm, hf, hs, hinner⟩ := h.openNested hopen
        have hedit := ih hinner
        rw [hf, hs] at hedit
        exact h.putNested hm hedit
    | row name index =>
      rw [Record.editAt]
      split
      · exact ⟨rfl, rfl, h⟩
      · rename_i i row rows hopen
        obtain ⟨declared, description, hm, hr⟩ := h.openTable hopen
        split
        · exact h.putTable hm hr
        · rename_i x hx
          obtain ⟨hf, hs, hsound⟩ := hr x (List.mem_of_getElem? hx)
          have hedit := ih hsound
          rw [hf, hs] at hedit
          refine h.putTable hm fun y hy => ?_
          rcases List.mem_or_eq_of_mem_set hy with hy | rfl
          · exact hr y hy
          · exact hedit

end Record

end DocWire
