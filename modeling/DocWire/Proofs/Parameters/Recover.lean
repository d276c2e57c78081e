/-
  DocWire.Proofs.Parameters.Recover — what a parameter set comes back as.

  The function, the shape and every slot stay what they were: absent, made but empty, or filled. Only values
  are recovered instead of being the same.

  The records in a parameter set are told in the order in which they are written (`preorder`): each before those
  below it, those below it in the order of their slots, the rows of a table from the first to the last. Of each
  record those members are written that are there (`present`).
-/

import DocWire.Parameters.Record
import DocWire.Proofs.Field.Coercion

namespace DocWire.Record

mutual

def Recovered : Record → Record → Prop
  | .mk f shape slots, .mk f' shape' slots' => f' = f ∧ shape' = shape ∧ SlotsRecovered shape.members slots slots'
termination_by structural r => r

def SlotsRecovered : List (Member Shape) → List (Slot Record) → List (Slot Record) → Prop
  | [], [], [] => True
  | m :: ms, slot :: rest, slot' :: rest' => SlotRecovered m slot slot' ∧ SlotsRecovered ms rest rest'
  | _, _, _ => False
termination_by structural _ r => r

def SlotRecovered : Member Shape → Slot Record → Slot Record → Prop
  | _, .absent, .absent => True
  | .field decl, .value v, .value w => Coercion.Recovered decl.format v w
  | .nested _ _ _, .nested r, .nested r' => Recovered r r'
  | .table _ _ _, .table rows, .table rows' => RowsRecovered rows rows'
  | _, _, _ => False
termination_by structural _ r => r

def RowsRecovered : List Record → List Record → Prop
  | [], [] => True
  | r :: rest, r' :: rest' => Recovered r r' ∧ RowsRecovered rest rest'
  | _, _ => False
termination_by structural r => r

end

/-- What has an entry is a field that is set. -/
theorem entry?_eq_some {x : Member Shape × Slot Record} {e : FieldDecl × Value} (h : entry? x = some e) :
    x.1 = .field e.1 ∧ x.2 = .value e.2 := by
  unfold entry? at h
  split at h
  · cases h
    exact ⟨rfl, rfl⟩
  · cases h

/-- The names of what is set are among those of the members, in their order. -/
theorem entries_sublist (r : Record) :
    (r.entries.map (·.1.name)).Sublist (r.shape.members.map Member.name) := by
  rw [entries]
  generalize r.slots = slots
  induction r.shape.members generalizing slots with
  | nil => exact List.nil_sublist _
  | cons m ms ih =>
    cases slots with
    | nil => exact List.nil_sublist _
    | cons slot rest =>
      have ih := ih rest
      rw [List.zip_cons_cons]
      cases he : entry? (m, slot) with
      | none =>
        rw [List.filterMap_cons_none he]
        exact ih.cons m.name
      | some e =>
        have hname : e.1.name = m.name := (congrArg Member.name (entry?_eq_some he).1).symm
        rw [List.filterMap_cons_some he, List.map_cons, hname]
        exact ih.cons_cons m.name

theorem entries_recovered : ∀ {ms : List (Member Shape)} {slots slots' : List (Slot Record)},
    SlotsRecovered ms slots slots' →
    ((ms.zip slots').filterMap entry?).map (·.1) = ((ms.zip slots).filterMap entry?).map (·.1)
  | [], _, _, _ => rfl
  | m :: ms, [], slots', h => by
    cases slots' with
    | nil => rfl
    | cons slot' rest' => cases h
  | m :: ms, slot :: rest, [], h => by cases h
  | m :: ms, slot :: rest, slot' :: rest', h => by
    have hbehind := entries_recovered h.2
    have hown : (Option.map (·.1) <| entry? (m, slot')) = (Option.map (·.1) <| entry? (m, slot)) := by
      obtain ⟨hslot, -⟩ := h
      cases m <;> cases slot <;> cases slot' <;> first | rfl | cases hslot
    rw [List.zip_cons_cons, List.zip_cons_cons, List.filterMap_cons, List.filterMap_cons]
    cases he : entry? (m, slot) with
    | none =>
      rw [he, Option.map_none, Option.map_eq_none_iff] at hown
      rw [hown]
      exact hbehind
    | some e =>
      rw [he, Option.map_some] at hown
      obtain ⟨e', he', hfst⟩ := Option.map_eq_some_iff.mp hown
      rw [he']
      simp only [List.map_cons, hfst, hbehind]

theorem Recovered.function {r r' : Record} (h : r.Recovered r') : r'.function = r.function := by
  cases r with
  | mk f shape slots =>
    cases r' with
    | mk f' shape' slots' => exact h.1

/-- The same fields are set in what a record comes back as. -/
theorem Recovered.fields {r r' : Record} (h : r.Recovered r') : r'.entries.map (·.1) = r.entries.map (·.1) := by
  cases r with
  | mk f shape slots =>
    cases r' with
    | mk f' shape' slots' =>
      obtain ⟨rfl, rfl, hslots⟩ := h
      exact entries_recovered hslots

/-! ## The records in a parameter set -/

mutual

/-- A record, and behind it all below it. -/
def preorder : Record → List Record
  | .mk f shape slots => .mk f shape slots :: preorderSlots slots

def preorderSlots : List (Slot Record) → List Record
  | [] => []
  | slot :: rest => preorderSlot slot ++ preorderSlots rest

def preorderSlot : Slot Record → List Record
  | .absent => []
  | .value _ => []
  | .nested r => preorder r
  | .table rows => preorderRows rows

def preorderRows : List Record → List Record
  | [] => []
  | r :: rest => preorder r ++ preorderRows rest

end

theorem mem_preorderSlots {slots : List (Slot Record)} {x : Record} :
    x ∈ preorderSlots slots ↔ ∃ slot ∈ slots, x ∈ preorderSlot slot := by
  induction slots with
  | nil => simp [preorderSlots]
  | cons slot rest ih => rw [preorderSlots, List.mem_append, ih, List.exists_mem_cons_iff]

theorem mem_preorderRows {rows : List Record} {x : Record} : x ∈ preorderRows rows ↔ ∃ r ∈ rows, x ∈ r.preorder := by
  induction rows with
  | nil => simp [preorderRows]
  | cons r rest ih => rw [preorderRows, List.mem_append, ih, List.exists_mem_cons_iff]

theorem mem_preorder {r x : Record} : x ∈ r.preorder ↔ x = r ∨ ∃ slot ∈ r.slots, x ∈ preorderSlot slot := by
  cases r with
  | mk f shape slots => rw [preorder, List.mem_cons, mem_preorderSlots, Record.slots]

/-- The members of the given ones that are there, be they set or made. -/
def presentAmong : List (Member Shape) → List (Slot Record) → List (Member Shape)
  | m :: ms, slot :: rest =>
    match slot with
    | .absent => presentAmong ms rest
    | _ => m :: presentAmong ms rest
  | _, _ => []

def present : Record → List (Member Shape)
  | .mk _ shape slots => presentAmong shape.members slots

theorem presentAmong_cons {m : Member Shape} {ms : List (Member Shape)} {slot : Slot Record} {rest : List (Slot Record)}
    (h : slot ≠ .absent) : presentAmong (m :: ms) (slot :: rest) = m :: presentAmong ms rest := by
  cases slot with
  | absent => exact absurd rfl h
  | value v => rfl
  | nested r => rfl
  | table rows => rfl

theorem presentAmong_own {m : Member Shape} {ms : List (Member Shape)} {slot : Slot Record} {rest : List (Slot Record)}
    (h : slot ≠ .absent) : m ∈ presentAmong (m :: ms) (slot :: rest) := by
  rw [presentAmong_cons h]
  exact List.mem_cons_self

theorem presentAmong_rest {m n : Member Shape} {ms : List (Member Shape)} {slot : Slot Record} {rest : List (Slot Record)}
    (h : n ∈ presentAmong ms rest) : n ∈ presentAmong (m :: ms) (slot :: rest) := by
  cases slot with
  | absent => exact h
  | value v => exact List.mem_cons_of_mem _ h
  | nested r => exact List.mem_cons_of_mem _ h
  | table rows => exact List.mem_cons_of_mem _ h

theorem presentAmong_sublist (ms : List (Member Shape)) (slots : List (Slot Record)) :
    (presentAmong ms slots).Sublist ms := by
  induction ms generalizing slots with
  | nil => simp [presentAmong]
  | cons m ms ih =>
    cases slots with
    | nil => exact List.nil_sublist _
    | cons slot rest =>
      cases slot with
      | absent => exact (ih rest).cons m
      | value v => exact (ih rest).cons_cons m
      | nested r => exact (ih rest).cons_cons m
      | table rows => exact (ih rest).cons_cons m

/-- A field that is set is there. -/
theorem entry_present {r : Record} {e : FieldDecl × Value} (h : e ∈ r.entries) : .field e.1 ∈ r.present := by
  obtain ⟨f, shape, slots⟩ := r
  obtain ⟨p, hp, he⟩ := List.mem_filterMap.mp h
  have hall : ∀ (ms : List (Member Shape)) (slots : List (Slot Record)), p ∈ ms.zip slots →
      .field e.1 ∈ presentAmong ms slots := by
    intro ms
    induction ms with
    | nil =>
      intro slots hp
      cases hp
    | cons m ms ih =>
      intro slots hp
      cases slots with
      | nil => cases hp
      | cons slot rest =>
        rcases List.mem_cons.mp hp with rfl | hp
        · cases m with
          | nested name description shape => cases slot <;> cases he
          | table name description row => cases slot <;> cases he
          | field decl =>
            cases slot with
            | absent => cases he
            | nested r => cases he
            | table rows => cases he
            | value v =>
              cases he
              exact List.mem_cons_self
        · exact presentAmong_rest (ih rest hp)
  exact hall _ _ hp

end DocWire.Record
