/-
  DocWire.Proofs.Parameters.Seen — parameter sets whose values are looked at through a view.

  Through a view a record keeps its function, its shape, its nested records and the rows of its tables, all the way down.
  A scalar member shows what is seen of its value; where nothing is seen it looks as if it were unset. Members are found by
  their names, and what is opened is what is there or a blank record; neither asks for a value. So both come to the same
  before and behind a view (`seen_openNested`, `seen_openTable`), and so does putting something into a slot (`seen_putSlot`).
-/

import DocWire.Proofs.Document.Seen
import DocWire.Proofs.Parameters.Sound

namespace DocWire.Record

mutual

def seen (view : View Shape) : Record → Record
  | .mk f shape slots => .mk f shape (seenSlots view (view shape) slots)

/-- Slots in a row, each with what is seen of the value in its place. -/
def seenSlots (view : View Shape) (places : Nat → Value → Option Value) : List (Slot Record) → List (Slot Record)
  | [] => []
  | slot :: rest => seenSlot view (places 0) slot :: seenSlots view (fun i => places (i + 1)) rest

def seenSlot (view : View Shape) (place : Value → Option Value) : Slot Record → Slot Record
  | .absent => .absent
  | .value v =>
    match place v with
    | some w => .value w
    | none => .absent
  | .nested r => .nested (seen view r)
  | .table rows => .table (seenRows view rows)

def seenRows (view : View Shape) : List Record → List Record
  | [] => []
  | r :: rest => seen view r :: seenRows view rest

end

variable {view : View Shape} {r : Record}

theorem seenSlots_eq_mapIdx {places : Nat → Value → Option Value} (slots : List (Slot Record)) :
    seenSlots view places slots = slots.mapIdx fun i slot => seenSlot view (places i) slot := by
  induction slots generalizing places with
  | nil => rfl
  | cons slot rest ih => rw [seenSlots, ih, List.mapIdx_cons]

theorem seenRows_eq_map (rows : List Record) : seenRows view rows = rows.map (seen view) := by
  induction rows with
  | nil => rfl
  | cons r rest ih => rw [seenRows, ih, List.map_cons]

mutual

/-- Where everything is seen, the record is seen as it is. -/
theorem seen_whole : ∀ r : Record, r.seen .whole = r
  | .mk f shape slots => congrArg (Record.mk f shape) (seenSlots_whole slots)

theorem seenSlots_whole : ∀ slots : List (Slot Record), seenSlots .whole (fun _ => some) slots = slots
  | [] => rfl
  | slot :: rest => congrArg₂ List.cons (seenSlot_whole slot) (seenSlots_whole rest)

theorem seenSlot_whole : ∀ slot : Slot Record, seenSlot .whole some slot = slot
  | .absent => rfl
  | .value _ => rfl
  | .nested r => congrArg Slot.nested (seen_whole r)
  | .table rows => congrArg Slot.table (seenRows_whole rows)

theorem seenRows_whole : ∀ rows : List Record, seenRows .whole rows = rows
  | [] => rfl
  | r :: rest => congrArg₂ List.cons (seen_whole r) (seenRows_whole rest)

end

theorem seen_eq (r : Record) :
    r.seen view = .mk r.function r.shape (r.slots.mapIdx fun i slot => seenSlot view (view r.shape i) slot) := by
  obtain ⟨f, shape, slots⟩ := r
  rw [seen, seenSlots_eq_mapIdx]
  rfl

theorem function_seen (r : Record) : (r.seen view).function = r.function := by rw [seen_eq, function]

theorem seen_blank (f : Function) (shape : Shape) : (blank f shape).seen view = blank f shape := by
  rw [blank, seen, seenSlots_eq_mapIdx]
  congr 1
  refine List.ext_getElem? fun i => ?_
  rw [List.getElem?_mapIdx, List.getElem?_map, Option.map_map]
  rfl

/-! ## Slots -/

theorem slotAt_seen (r : Record) (i : Nat) : (r.seen view).slotAt i = seenSlot view (view r.shape i) (r.slotAt i) := by
  rw [seen_eq, slotAt, slots, List.getElem?_mapIdx, slotAt]
  cases r.slots[i]? <;> rfl

theorem seen_putSlot (r : Record) (i : Nat) (slot : Slot Record) :
    (r.putSlot i slot).seen view = (r.seen view).putSlot i (seenSlot view (view r.shape i) slot) := by
  rw [putSlot, seen_eq, seen_eq, putSlot, slots, slots, List.mapIdx_set]
  rfl

theorem putSlot_again (r : Record) (i : Nat) (slot slot' : Slot Record) :
    (r.putSlot i slot).putSlot i slot' = r.putSlot i slot' := by
  rw [putSlot, putSlot, slots, List.set_set]
  rfl

theorem putSlot_apart (r : Record) {i j : Nat} (hne : i ≠ j) (slot slot' : Slot Record) :
    (r.putSlot i slot).putSlot j slot' = (r.putSlot j slot').putSlot i slot := by
  rw [putSlot, putSlot, putSlot, putSlot, slots, slots, List.set_comm _ _ hne]
  rfl

/-- The slot of a scalar member that is set, or left unset. -/
def scalarSlot : Option Value → Slot Record
  | some v => .value v
  | none => .absent

theorem seenSlot_scalarSlot (place : Value → Option Value) (value? : Option Value) :
    seenSlot view place (scalarSlot value?) = scalarSlot (value?.bind place) := by
  cases value? with
  | none => rfl
  | some v =>
    rw [scalarSlot, seenSlot, Option.bind_some]
    cases place v <;> rfl

/-! ## Members -/

theorem resolve_seen (r : Record) (name : String) : (r.seen view).resolve name = r.resolve name := by
  rw [seen_eq]
  rfl

theorem resolveNested_seen (r : Record) (name : String) : (r.seen view).resolveNested name = r.resolveNested name := by
  rw [resolveNested, resolve_seen, resolveNested]

theorem resolveTable_seen (r : Record) (name : String) : (r.seen view).resolveTable name = r.resolveTable name := by
  rw [resolveTable, resolve_seen, resolveTable]

theorem seen_openNested (r : Record) (name : String) :
    (r.openNested name).map (fun p => (p.1, p.2.seen view)) = (r.seen view).openNested name := by
  rw [openNested, openNested, resolveNested_seen]
  rcases r.resolveNested name with e | ⟨i, shape⟩
  · rfl
  · rw [Outcome.map_ok, Outcome.map_ok, Outcome.map_ok]
    simp only [slotAt_seen, function_seen]
    rcases r.slotAt i with _ | v | inner | rows
    · simp only [seenSlot, seen_blank]
    · simp only [seenSlot, seen_blank]
      cases view r.shape i v <;> rfl
    · simp only [seenSlot]
    · simp only [seenSlot, seen_blank]

theorem seen_openTable (r : Record) (name : String) :
    (r.openTable name).map (fun p => (p.1, p.2.1, p.2.2.map (seen view))) = (r.seen view).openTable name := by
  rw [openTable, openTable, resolveTable_seen]
  rcases r.resolveTable name with e | ⟨i, row⟩
  · rfl
  · rw [Outcome.map_ok, Outcome.map_ok, Outcome.map_ok]
    simp only [slotAt_seen]
    rcases r.slotAt i with _ | v | inner | rows
    · simp only [seenSlot, List.map_nil]
    · simp only [seenSlot, List.map_nil]
      cases view r.shape i v <;> rfl
    · simp only [seenSlot, List.map_nil]
    · simp only [seenSlot, seenRows_eq_map]

end DocWire.Record
