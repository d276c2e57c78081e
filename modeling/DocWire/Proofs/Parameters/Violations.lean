/-
  DocWire.Proofs.Parameters.Violations — what the report on a parameter set says, record by record.

  The report has one violation for each unfit value, in any record within (`validate_eq`): a record before those in its
  slots, those in the order of the members, the rows of a table from the first to the last. `placed` lists the records in
  that order, each with the steps that lead to it. It is the pre-order, so none is left out (`placed_records`), and the
  steps are those by which the record is looked up (`atPath_placed`). All of it follows the recursion of the report
  over records, slots and rows.
-/

import DocWire.Parameters.Validate
import DocWire.Proofs.Document.Violations
import DocWire.Proofs.Parameters.Inner

namespace DocWire.Record

/-- The path behind one more step. -/
def Step.extend (path : String) : Step → String
  | .nested name => path ++ "/" ++ name
  | .row name index => path ++ "/" ++ name ++ "[" ++ toString index ++ "]"

/-- The path of the record that some steps lead to, from one with a path. -/
def pathBehind (path : String) (steps : List Step) : String := steps.foldl Step.extend path

theorem pathBehind_snoc (path : String) (steps : List Step) (step : Step) :
    pathBehind path (steps ++ [step]) = step.extend (pathBehind path steps) := by
  rw [pathBehind, List.foldl_append]
  rfl

/-- A record with the steps that lead to it. -/
abbrev Place := List Step × Record

mutual

/-- A record that some steps lead to, and behind it all within, with the steps that lead there. -/
def placed (steps : List Step) : Record → List Place
  | .mk f shape slots => (steps, .mk f shape slots) :: placedInSlots steps (shape.members.map Member.name) slots

def placedInSlots (steps : List Step) (names : List String) : List (Slot Record) → List Place
  | [] => []
  | slot :: rest => placedInSlot steps (names.headD "") slot ++ placedInSlots steps names.tail rest

def placedInSlot (steps : List Step) (name : String) : Slot Record → List Place
  | .absent => []
  | .value _ => []
  | .nested r => placed (steps ++ [.nested name]) r
  | .table rows => placedInRows steps name 0 rows

def placedInRows (steps : List Step) (name : String) (index : Nat) : List Record → List Place
  | [] => []
  | r :: rest => placed (steps ++ [.row name index]) r ++ placedInRows steps name (index + 1) rest

end

/-! ## Nothing is left out -/

mutual

theorem placed_records : ∀ (r : Record) (steps : List Step), (r.placed steps).map (·.2) = r.preorder
  | .mk f shape slots, steps => by
    rw [placed, preorder, List.map_cons, placedInSlots_records]

theorem placedInSlots_records : ∀ (slots : List (Slot Record)) (steps : List Step) (names : List String),
    (placedInSlots steps names slots).map (·.2) = preorderSlots slots
  | [], _, _ => rfl
  | slot :: rest, steps, names => by
    rw [placedInSlots, preorderSlots, List.map_append, placedInSlot_records, placedInSlots_records]

theorem placedInSlot_records : ∀ (slot : Slot Record) (steps : List Step) (name : String),
    (placedInSlot steps name slot).map (·.2) = preorderSlot slot
  | .absent, _, _ => rfl
  | .value _, _, _ => rfl
  | .nested r, steps, name => by
    rw [placedInSlot, preorderSlot, placed_records]
  | .table rows, steps, name => by
    rw [placedInSlot, preorderSlot, placedInRows_records]

theorem placedInRows_records : ∀ (rows : List Record) (steps : List Step) (name : String) (index : Nat),
    (placedInRows steps name index rows).map (·.2) = preorderRows rows
  | [], _, _, _ => rfl
  | r :: rest, steps, name, index => by
    rw [placedInRows, preorderRows, List.map_append, placed_records, placedInRows_records]

end

/-! ## The report -/

/-- What is said of the unfit values of one record. -/
def faultsAt (top : String) (place : Place) : List Violation :=
  (place.2.entries.filter Unfit).map fun e => ⟨pathBehind top place.1, unfitCause e⟩

mutual

theorem violationsBelow_eq : ∀ (r : Record) (top : String) (steps : List Step),
    violationsBelow (pathBehind top steps) r = (r.placed steps).flatMap (faultsAt top)
  | .mk f shape slots, top, steps => by
    rw [violationsBelow, placed, List.flatMap_cons, fieldViolations_eq, violationsOfSlots_eq]
    rfl

theorem violationsOfSlots_eq : ∀ (slots : List (Slot Record)) (top : String) (steps : List Step) (names : List String),
    violationsOfSlots (pathBehind top steps) names slots = (placedInSlots steps names slots).flatMap (faultsAt top)
  | [], _, _, _ => rfl
  | slot :: rest, top, steps, names => by
    rw [violationsOfSlots, placedInSlots, List.flatMap_append, violationsOfSlot_eq, violationsOfSlots_eq]

theorem violationsOfSlot_eq : ∀ (slot : Slot Record) (top : String) (steps : List Step) (name : String),
    violationsOfSlot (pathBehind top steps ++ "/" ++ name) slot = (placedInSlot steps name slot).flatMap (faultsAt top)
  | .absent, _, _, _ => rfl
  | .value _, _, _, _ => rfl
  | .nested r, top, steps, name => by
    rw [violationsOfSlot, placedInSlot, ← violationsBelow_eq, pathBehind_snoc]
    rfl
  | .table rows, top, steps, name => by
    rw [violationsOfSlot, placedInSlot, violationsOfRows_eq]

theorem violationsOfRows_eq : ∀ (rows : List Record) (top : String) (steps : List Step) (name : String) (index : Nat),
    violationsOfRows (pathBehind top steps ++ "/" ++ name) index rows =
      (placedInRows steps name index rows).flatMap (faultsAt top)
  | [], _, _, _, _ => rfl
  | r :: rest, top, steps, name, index => by
    rw [violationsOfRows, placedInRows, List.flatMap_append, ← violationsBelow_eq, pathBehind_snoc, violationsOfRows_eq]
    rfl

end

/-- The report has what is to be said of each record within, in their order. -/
theorem validate_eq (r : Record) : r.validate = (r.placed []).flatMap (faultsAt ("/" ++ r.name)) :=
  violationsBelow_eq r ("/" ++ r.name) []

/-! ## Steps that are looked up -/

/-- A step leads into the slot of a member, to a record that the slot holds. -/
def Enters (m : Member Shape) (slot : Slot Record) (step : Step) (x : Record) : Prop :=
  (slot = .nested x ∧ step = .nested m.name) ∨
    ∃ rows index, slot = .table rows ∧ rows[index]? = some x ∧ step = .row m.name index

variable {r x : Record} {i : Nat} {m : Member Shape} {step : Step}

/-- A step into a slot is looked up by the name of its member. -/
theorem atPath_enters (h : r.Sound) (hd : r.shape.Distinct) (hm : r.shape.members[i]? = some m)
    (hstep : Enters m (r.slotAt i) step x) (rest : List Step) : r.atPath (step :: rest) = x.atPath rest := by
  have hslot := h.slotAt hm
  rcases hstep with ⟨hheld, rfl⟩ | ⟨rows, index, hheld, hrow, rfl⟩
  · rw [hheld] at hslot
    cases m with
    | field decl => cases hslot
    | table name description row => cases hslot
    | nested name description shape =>
      have hnested : r.nested name = .ok (some x) := by
        simp only [Record.nested, resolveNested_declared hd hm, hheld, Outcome.map_ok]
      show r.atPath (.nested name :: rest) = x.atPath rest
      rw [atPath, hnested]
  · rw [hheld] at hslot
    cases m with
    | field decl => cases hslot
    | nested name description shape => cases hslot
    | table name description row =>
      have htable : r.table name = .ok (row, some rows) := by
        simp only [Record.table, resolveTable_declared hd hm, hheld, Outcome.map_ok]
      show r.atPath (.row name index :: rest) = x.atPath rest
      rw [atPath, htable]
      simp only [Option.getD_some, hrow]

mutual

/-- Where a record is listed, the steps that are listed with it lead to it. -/
theorem atPath_placed : ∀ (r : Record) (steps : List Step) {p : Place}, r.Sound → r.shape.Distinct → p ∈ r.placed steps →
    ∃ more, p.1 = steps ++ more ∧ r.atPath more = .ok p.2
  | .mk f shape slots, steps, p, hr, hd, hp => by
    rcases List.mem_cons.mp hp with rfl | hp
    · exact ⟨[], (List.append_nil steps).symm, rfl⟩
    obtain ⟨i, m, slot, hm, hslot, step, more, x, hsteps, henters, hx⟩ :=
      atPath_placedInSlots slots shape.members steps hr (fun m hm t ht => hd.below hm ht) hp
    have hat : (Record.mk f shape slots).slotAt i = slot := by
      show (slots[i]?).getD .absent = slot
      rw [hslot, Option.getD_some]
    exact ⟨step :: more, hsteps, (atPath_enters hr hd hm (hat ▸ henters) more).trans hx⟩

theorem atPath_placedInSlots {f : Function} : ∀ (slots : List (Slot Record)) (ms : List (Member Shape))
    (steps : List Step) {p : Place}, SlotsSound f ms slots → (∀ m ∈ ms, ∀ t, m.reference? = some t → t.Distinct) →
    p ∈ placedInSlots steps (ms.map Member.name) slots →
    ∃ (i : Nat) (m : Member Shape) (slot : Slot Record), ms[i]? = some m ∧ slots[i]? = some slot ∧
      ∃ step more x, p.1 = steps ++ step :: more ∧ Enters m slot step x ∧ x.atPath more = .ok p.2
  | [], _, _, p, _, _, hp => by cases hp
  | slot :: rest, [], _, p, hs, _, _ => by cases hs
  | slot :: rest, m :: ms, steps, p, ⟨hslot, hrest⟩, hd, hp => by
    rcases List.mem_append.mp hp with hp | hp
    · exact ⟨0, m, slot, rfl, rfl, atPath_placedInSlot slot m steps hslot (hd m List.mem_cons_self) hp⟩
    · obtain ⟨i, m', slot', hm, hs, hfound⟩ :=
        atPath_placedInSlots rest ms steps hrest (fun m hm => hd m (List.mem_cons_of_mem _ hm)) hp
      exact ⟨i + 1, m', slot', hm, hs, hfound⟩

theorem atPath_placedInSlot {f : Function} : ∀ (slot : Slot Record) (m : Member Shape) (steps : List Step) {p : Place},
    SlotSound f m slot → (∀ t, m.reference? = some t → t.Distinct) → p ∈ placedInSlot steps m.name slot →
    ∃ step more x, p.1 = steps ++ step :: more ∧ Enters m slot step x ∧ x.atPath more = .ok p.2
  | .absent, _, _, p, _, _, hp => by cases hp
  | .value _, _, _, p, _, _, hp => by cases hp
  | .nested x, m, steps, p, hs, hd, hp => by
    cases m with
    | field decl => cases hs
    | table name description row => cases hs
    | nested name description shape =>
      obtain ⟨-, rfl, hx⟩ := hs
      obtain ⟨more, hsteps, hfound⟩ := atPath_placed x (steps ++ [.nested name]) hx (hd x.shape rfl) hp
      exact ⟨.nested name, more, x, by rw [hsteps, List.append_assoc]; rfl, .inl ⟨rfl, rfl⟩, hfound⟩
  | .table rows, m, steps, p, hs, hd, hp => by
    cases m with
    | field decl => cases hs
    | nested name description shape => cases hs
    | table name description row =>
      have hall := rowsSound_iff.mp hs
      obtain ⟨index, x, more, hrow, hsteps, hfound⟩ := atPath_placedInRows rows name 0 steps
        (fun x hx => (hall x hx).2.2) (fun x hx => (hall x hx).2.1 ▸ hd row rfl) hp
      rw [Nat.zero_add] at hsteps
      exact ⟨.row name index, more, x, hsteps, .inr ⟨rows, index, rfl, hrow, rfl⟩, hfound⟩

/-- The rows are numbered from `start` on. -/
theorem atPath_placedInRows : ∀ (rows : List Record) (name : String) (start : Nat) (steps : List Step) {p : Place},
    (∀ x ∈ rows, x.Sound) → (∀ x ∈ rows, x.shape.Distinct) → p ∈ placedInRows steps name start rows →
    ∃ index x more, rows[index]? = some x ∧ p.1 = steps ++ .row name (start + index) :: more ∧ x.atPath more = .ok p.2
  | [], _, _, _, p, _, _, hp => by cases hp
  | r :: rest, name, start, steps, p, hs, hd, hp => by
    rcases List.mem_append.mp hp with hp | hp
    · obtain ⟨more, hsteps, hfound⟩ := atPath_placed r (steps ++ [.row name start]) (hs r List.mem_cons_self)
        (hd r List.mem_cons_self) hp
      exact ⟨0, r, more, rfl, by rw [hsteps, List.append_assoc]; rfl, hfound⟩
    · obtain ⟨index, x, more, hrow, hsteps, hfound⟩ := atPath_placedInRows rest name (start + 1) steps
        (fun x hx => hs x (List.mem_cons_of_mem _ hx)) (fun x hx => hd x (List.mem_cons_of_mem _ hx)) hp
      exact ⟨index + 1, x, more, hrow, by rw [hsteps, Nat.add_right_comm, Nat.add_assoc], hfound⟩

end

end DocWire.Record
