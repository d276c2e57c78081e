/-
  DocWire.Proofs.Parameters.Inner — the records within a parameter set.

  A record holds those that its slots hold, and with each of them what that one holds (`preorder`). What passes from a
  record to those in its slots therefore holds of every record within (`Passes.preorder`). Soundness passes on, and every
  record in a slot is of the shape that its member refers to (`Sound.holds`); so the records within a sound one belong
  to its function, and their members are told apart as its own are.
-/

import DocWire.Proofs.Parameters.Recover
import DocWire.Proofs.Parameters.Sound

namespace DocWire

/-- A slot holds a record: as its nested record, or as one of its rows. -/
def Slot.Holds (slot : Slot Record) (x : Record) : Prop := slot = .nested x ∨ ∃ rows, slot = .table rows ∧ x ∈ rows

namespace Record

/-- A record holds another in one of its slots. -/
def Holds (r x : Record) : Prop := ∃ slot ∈ r.slots, slot.Holds x

/-- What holds of a record holds of those in its slots. -/
def Passes (P : Record → Prop) : Prop := ∀ r x : Record, P r → r.Holds x → P x

variable {P : Record → Prop}

mutual

/-- What passes from a record to those in its slots holds of all records within. -/
theorem Passes.preorder (hp : Passes P) : ∀ (r : Record), P r → ∀ x ∈ r.preorder, P x
  | .mk f shape slots, hr, x, hx => by
    rcases List.mem_cons.mp hx with rfl | hx
    · exact hr
    · exact hp.preorderSlots slots (fun slot hslot y hy => hp _ y hr ⟨slot, hslot, hy⟩) x hx

theorem Passes.preorderSlots (hp : Passes P) : ∀ (slots : List (Slot Record)),
    (∀ slot ∈ slots, ∀ y, slot.Holds y → P y) → ∀ x ∈ Record.preorderSlots slots, P x
  | [], _, x, hx => by cases hx
  | slot :: rest, h, x, hx => by
    rcases List.mem_append.mp hx with hx | hx
    · exact hp.preorderSlot slot (h slot List.mem_cons_self) x hx
    · exact hp.preorderSlots rest (fun s hs => h s (List.mem_cons_of_mem _ hs)) x hx

theorem Passes.preorderSlot (hp : Passes P) : ∀ (slot : Slot Record), (∀ y, slot.Holds y → P y) →
    ∀ x ∈ Record.preorderSlot slot, P x
  | .absent, _, x, hx => by cases hx
  | .value _, _, x, hx => by cases hx
  | .nested r, h, x, hx => hp.preorder r (h r (.inl rfl)) x hx
  | .table rows, h, x, hx => hp.preorderRows rows (fun r hr => h r (.inr ⟨rows, rfl, hr⟩)) x hx

theorem Passes.preorderRows (hp : Passes P) : ∀ (rows : List Record), (∀ r ∈ rows, P r) →
    ∀ x ∈ Record.preorderRows rows, P x
  | [], _, x, hx => by cases hx
  | r :: rest, h, x, hx => by
    rcases List.mem_append.mp hx with hx | hx
    · exact hp.preorder r (h r List.mem_cons_self) x hx
    · exact hp.preorderRows rest (fun y hy => h y (List.mem_cons_of_mem _ hy)) x hx

end

variable {r x : Record}

/-- A record in a slot of a sound one is sound, belongs to the same function, and is of the shape that the member of the
slot refers to. -/
theorem Sound.holds (h : r.Sound) (hx : r.Holds x) :
    ∃ m ∈ r.shape.members, ∃ shape, m.reference? = some shape ∧ IsOf r.function shape x := by
  obtain ⟨slot, hslot, hheld⟩ := hx
  obtain ⟨m, hm, hsound⟩ := Pairing.right (sound_iff.mp h) hslot
  rcases hheld with rfl | ⟨rows, rfl, hrow⟩
  · cases m with
    | field decl => cases hsound
    | nested name description shape => exact ⟨_, hm, shape, rfl, hsound⟩
    | table name description row => cases hsound
  · cases m with
    | field decl => cases hsound
    | nested name description shape => cases hsound
    | table name description row => exact ⟨_, hm, row, rfl, rowsSound_iff.mp hsound x hrow⟩

/-- The records within a sound record are sound and belong to its function. -/
theorem Sound.preorder (h : r.Sound) (hx : x ∈ r.preorder) : x.function = r.function ∧ x.Sound := by
  have hpasses : Passes fun y => y.function = r.function ∧ y.Sound := by
    rintro y z ⟨hf, hy⟩ hz
    obtain ⟨m, -, shape, -, hfunction, -, hsound⟩ := hy.holds hz
    exact ⟨hfunction.trans hf, hsound⟩
  exact hpasses.preorder r ⟨rfl, h⟩ x hx

/-- What is said of the members of a shape and of all shapes below it is said of every record within. -/
theorem Sound.every_preorder {Q : List (Member Shape) → Prop} (h : r.Sound) (hr : r.shape.Every Q)
    (hx : x ∈ r.preorder) : x.shape.Every Q := by
  have hpasses : Passes fun y => y.Sound ∧ y.shape.Every Q := by
    rintro y z ⟨hy, hevery⟩ hz
    obtain ⟨m, hm, shape, href, -, rfl, hsound⟩ := hy.holds hz
    exact ⟨hsound, hevery.below hm href⟩
  exact (hpasses.preorder r ⟨h, hr⟩ x hx).2

end Record

end DocWire
