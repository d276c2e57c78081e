/-
  DocWire.Proofs.Parameters.Persist — what was made stays where it is.

  An edit changes one slot, or makes one on its way. A nested record that is there is opened and not made anew, and a
  table that is there keeps its rows: a row is appended behind them, or one of them is edited. So the record at a
  place (`held`) is changed only by the edits that lead through that place (`held_editBelow`), and the record at the
  end of a path, after any run of edits, is the one that was there with the edits that led through it made on it
  (`atPath_run`). What decides is the place that a step means, not the name that it gives: two names may mean one
  member.
-/

import Mathlib.Data.Nat.Basic
import DocWire.Proofs.Parameters.Reach

namespace DocWire.Record

/-- The record behind a run of edits. -/
def run (r : Record) (es : List (List Step × Edit)) : Record := es.foldl (fun r e => r.editBelow e.1 e.2) r

/-- A slot of a record, and for a table the number of a row. -/
abbrev Held := Nat × Option Nat

/-- The nested record or row at a place. -/
def held (r : Record) : Held → Option Record
  | (i, none) => match r.slotAt i with
    | .nested inner => some inner
    | _ => none
  | (i, some index) => match r.slotAt i with
    | .table rows => rows[index]?
    | _ => none

/-- The place that a step leads to, and the shape of what stands there. -/
def place? (r : Record) : Step → Option (Held × Shape)
  | .nested name => (r.resolveNested name).toOption.map fun (i, shape) => ((i, none), shape)
  | .row name index => (r.resolveTable name).toOption.map fun (i, row) => ((i, some index), row)

/-- What is left of a path behind the end of another one, if it leads through that. -/
def through (f : Function) : Shape → List Step → List Step → Option (List Step)
  | _, [], path => some path
  | _, _ :: _, [] => none
  | shape, step :: rest, step' :: path =>
    match (blank f shape).place? step, (blank f shape).place? step' with
    | some (place, inner), some (place', _) => if place = place' then through f inner rest path else none
    | _, _ => none

/-- The edits of a run that lead through the end of a path, as they are made there. -/
def directed (r : Record) (path : List Step) (es : List (List Step × Edit)) : List (List Step × Edit) :=
  es.filterMap fun e => (through r.function r.shape path e.1).map (·, e.2)

end DocWire.Record

namespace DocWire

/-- A slot holds at least what it held: the same nested record, the same rows in front. -/
def Slot.Extends : Slot Record → Slot Record → Prop
  | .nested inner, slot => slot = .nested inner
  | .table rows, slot => ∃ more, slot = .table (rows ++ more)
  | _, _ => True

namespace Record

variable {r inner x : Record} {place : Held} {shape row : Shape} {i j : Nat} {name : String}

theorem extends_refl (slot : Slot Record) : slot.Extends slot := by
  cases slot with
  | absent => trivial
  | value v => trivial
  | nested inner => rfl
  | table rows => exact ⟨[], by rw [List.append_nil]⟩

theorem slotAt_putSlot_ne {slot : Slot Record} (h : i ≠ j) : (r.putSlot j slot).slotAt i = r.slotAt i := by
  show ((r.slots.set j slot)[i]?).getD .absent = (r.slots[i]?).getD .absent
  rw [List.getElem?_set_ne (Ne.symm h)]

/-- There is a slot for every member. -/
theorem Sound.slotAt_putSlot (h : r.Sound) {m : Member Shape} (hm : r.shape.members[j]? = some m) (slot : Slot Record) :
    (r.putSlot j slot).slotAt j = slot := by
  have hlt : j < r.slots.length := by
    rw [← (sound_iff.mp h).length_eq]
    exact (List.getElem?_eq_some_iff.mp hm).1
  show ((r.slots.set j slot)[j]?).getD .absent = slot
  rw [List.getElem?_set_self hlt, Option.getD_some]

theorem held_nested : r.held (i, none) = some x ↔ r.slotAt i = .nested x := by
  rw [held]
  cases r.slotAt i <;> simp

theorem held_row {index : Nat} : r.held (i, some index) = some x ↔
    ∃ rows, r.slotAt i = .table rows ∧ rows[index]? = some x := by
  rw [held]
  cases r.slotAt i <;> simp

theorem held_putSlot_ne {slot : Slot Record} (h : place.1 ≠ j) : (r.putSlot j slot).held place = r.held place := by
  obtain ⟨i, _ | index⟩ := place
  · rw [held, held, slotAt_putSlot_ne h]
  · rw [held, held, slotAt_putSlot_ne h]

theorem held_of_extends {r' : Record} (h : (r.slotAt place.1).Extends (r'.slotAt place.1)) (hheld : r.held place = some x) :
    r'.held place = some x := by
  obtain ⟨i, _ | index⟩ := place
  · rw [held_nested] at hheld ⊢
    simp only [hheld] at h
    exact h
  · rw [held_row] at hheld ⊢
    obtain ⟨rows, hslot, hrow⟩ := hheld
    simp only [hslot] at h
    obtain ⟨more, hslot'⟩ := h
    have hlt := (List.getElem?_eq_some_iff.mp hrow).1
    exact ⟨rows ++ more, hslot', by rw [List.getElem?_append_left hlt, hrow]⟩

/-! ## An edit of the record itself -/

/-- A nested record that is there is the one that is opened. -/
theorem openNested_held (h : r.openNested name = .ok (j, inner)) :
    ∃ shape, r.resolveNested name = .ok (j, shape) ∧ ∀ x, r.slotAt j = .nested x → inner = x := by
  obtain ⟨shape, hr, hopened⟩ := openNested_eq_ok h
  refine ⟨shape, hr, fun x hx => ?_⟩
  rcases hopened with hheld | ⟨hnone, -⟩
  · rw [hheld] at hx
    cases hx
    rfl
  · exact (hnone x hx).elim

/-- The rows that are there are those that are opened. -/
theorem openTable_held {rows : List Record} (h : r.openTable name = .ok (j, row, rows)) :
    r.resolveTable name = .ok (j, row) ∧ ∀ rows', r.slotAt j = .table rows' → rows = rows' := by
  obtain ⟨hr, hopened⟩ := openTable_eq_ok h
  refine ⟨hr, fun rows' hrows => ?_⟩
  rcases hopened with hheld | ⟨hnone, -⟩
  · rw [hheld] at hrows
    cases hrows
    rfl
  · exact (hnone rows' hrows).elim

/-- The slot of a field holds no records. -/
theorem Sound.field_extends (h : r.Sound) {decl : FieldDecl} (hm : r.shape.members[j]? = some (.field decl))
    (slot : Slot Record) : (r.slotAt j).Extends slot := by
  have hslot := h.slotAt hm
  cases hheld : r.slotAt j with
  | absent => trivial
  | value v => trivial
  | nested inner =>
    rw [hheld] at hslot
    cases hslot
  | table rows =>
    rw [hheld] at hslot
    cases hslot

/-- The slot of a nested structure has no rows. -/
theorem Sound.slotAt_nested (h : r.Sound) {declared description : String}
    (hm : r.shape.members[j]? = some (.nested declared description shape)) (rows : List Record) :
    r.slotAt j ≠ .table rows := by
  intro hheld
  have hslot := h.slotAt hm
  rw [hheld] at hslot
  cases hslot

/-- The slot of a table has no nested record. -/
theorem Sound.slotAt_table (h : r.Sound) {declared description : String}
    (hm : r.shape.members[j]? = some (.table declared description row)) (x : Record) : r.slotAt j ≠ .nested x := by
  intro hheld
  have hslot := h.slotAt hm
  rw [hheld] at hslot
  cases hslot

theorem Sound.nested_extends (h : r.Sound) {declared description : String}
    (hm : r.shape.members[j]? = some (.nested declared description shape))
    (hsame : ∀ x, r.slotAt j = .nested x → inner = x) : (r.slotAt j).Extends (.nested inner) := by
  cases hheld : r.slotAt j with
  | absent => trivial
  | value v => trivial
  | nested x => exact congrArg Slot.nested (hsame x hheld)
  | table rows => exact (h.slotAt_nested hm rows hheld).elim

theorem Sound.table_extends (h : r.Sound) {declared description : String}
    (hm : r.shape.members[j]? = some (.table declared description row)) {rows : List Record}
    (hsame : ∀ rows', r.slotAt j = .table rows' → rows = rows') (more : List Record) :
    (r.slotAt j).Extends (.table (rows ++ more)) := by
  cases hheld : r.slotAt j with
  | absent => trivial
  | value v => trivial
  | nested x => exact (h.slotAt_table hm x hheld).elim
  | table rows' => exact ⟨more, by rw [hsame rows' hheld]⟩

theorem changeField_eq_ok {change : FieldDecl → Except ModelError (Option Value)} {r' : Record}
    (h : r.changeField name change = .ok r') :
    ∃ j decl slot, r.shape.members[j]? = some (.field decl) ∧ r' = r.putSlot j slot := by
  unfold changeField at h
  split at h
  · cases h
  rename_i j decl hr
  have hm := resolveField_eq_ok hr
  split at h
  · cases h
  · cases h
    exact ⟨j, decl, _, hm, rfl⟩
  · cases h
    exact ⟨j, decl, _, hm, rfl⟩

/-- What an edit does, when it succeeds. -/
theorem Sound.attempt_eq_ok (h : r.Sound) {e : Edit} {r' : Record} (hok : r.attempt e = .ok r') :
    ∃ j m slot, r.shape.members[j]? = some m ∧ r' = r.putSlot j slot ∧ (r.slotAt j).Extends slot := by
  have hfield : ∀ {name : String} {change : FieldDecl → Except ModelError (Option Value)},
      r.changeField name change = .ok r' →
      ∃ j m slot, r.shape.members[j]? = some m ∧ r' = r.putSlot j slot ∧ (r.slotAt j).Extends slot := by
    intro name change hchange
    obtain ⟨j, decl, slot, hm, rfl⟩ := changeField_eq_ok hchange
    exact ⟨j, _, slot, hm, rfl, h.field_extends hm slot⟩
  cases e with
  | set name value => exact hfield hok
  | setWire name text => exact hfield hok
  | unset name =>
    have hchange : r.changeField name (fun _ => .ok none) = .ok r' := hok
    exact hfield hchange
  | makeNested name =>
    obtain ⟨made, hmake, rfl⟩ := Outcome.map_eq_ok.mp hok
    obtain ⟨⟨j, inner⟩, hopen, rfl⟩ := Outcome.map_eq_ok.mp hmake
    obtain ⟨shape, hr, hsame⟩ := openNested_held hopen
    obtain ⟨declared, description, hm⟩ := resolveNested_eq_ok hr
    exact ⟨j, _, _, hm, rfl, h.nested_extends hm hsame⟩
  | makeTable name =>
    obtain ⟨made, hmake, rfl⟩ := Outcome.map_eq_ok.mp hok
    obtain ⟨⟨j, row, rows⟩, hopen, rfl⟩ := Outcome.map_eq_ok.mp hmake
    obtain ⟨hr, hsame⟩ := openTable_held hopen
    obtain ⟨declared, description, hm⟩ := resolveTable_eq_ok hr
    have hextends := h.table_extends hm hsame []
    rw [List.append_nil] at hextends
    exact ⟨j, _, _, hm, rfl, hextends⟩
  | addRow name =>
    obtain ⟨made, hmake, rfl⟩ := Outcome.map_eq_ok.mp hok
    obtain ⟨⟨j, row, rows⟩, hopen, rfl⟩ := Outcome.map_eq_ok.mp hmake
    obtain ⟨hr, hsame⟩ := openTable_held hopen
    obtain ⟨declared, description, hm⟩ := resolveTable_eq_ok hr
    exact ⟨j, _, _, hm, rfl, h.table_extends hm hsame _⟩

/-- An edit of a record leaves its nested records and rows as they are. -/
theorem Sound.edit_extends (h : r.Sound) (e : Edit) (i : Nat) : (r.slotAt i).Extends ((r.edit e).slotAt i) := by
  unfold Record.edit
  split
  · rename_i r' hok
    obtain ⟨j, m, slot, hm, rfl, hslot⟩ := h.attempt_eq_ok hok
    by_cases hij : i = j
    · subst hij
      rw [h.slotAt_putSlot hm]
      exact hslot
    · rw [slotAt_putSlot_ne hij]
      exact extends_refl _
  · exact extends_refl _

/-! ## An edit below -/

theorem editBelow_nested {path : List Step} {e : Edit} : r.editBelow (.nested name :: path) e =
    match r.openNested name with
    | .error _ => r
    | .ok (j, inner) => r.putSlot j (.nested (inner.editBelow path e)) := by
  rw [editBelow, editAt]
  cases r.openNested name <;> rfl

theorem editBelow_row {path : List Step} {index : Nat} {e : Edit} : r.editBelow (.row name index :: path) e =
    match r.openTable name with
    | .error _ => r
    | .ok (j, _, rows) => r.putSlot j (.table (rows.modify index (·.editBelow path e))) := by
  rw [editBelow, editAt]
  cases r.openTable name with
  | error e => rfl
  | ok opened =>
    obtain ⟨j, row, rows⟩ := opened
    simp only [List.modify_eq_set_getElem?]
    cases rows[index]? with
    | none => simp only [Option.map_eq_map, Option.map_none, Option.getD_none]
    | some row => simp only [Option.map_eq_map, Option.map_some, Option.getD_some, editBelow]

/-- What a name means depends on the function and the shape alone. -/
theorem resolveTable_congr {r' : Record} (hf : r'.function = r.function) (hs : r'.shape = r.shape) (name : String) :
    r'.resolveTable name = r.resolveTable name := by
  cases r
  cases r'
  cases hf
  cases hs
  rfl

/-- What a step means depends on the function and the shape alone. -/
theorem place?_eq (step : Step) : r.place? step = (blank r.function r.shape).place? step := by
  cases r with
  | mk f shape slots => cases step <;> rfl

theorem place?_nested : r.place? (.nested name) = some (place, shape) ↔
    ∃ i, r.resolveNested name = .ok (i, shape) ∧ place = (i, none) := by
  rw [place?]
  cases r.resolveNested name with
  | error e => simp [Except.toOption]
  | ok found =>
    obtain ⟨i, found⟩ := found
    constructor
    · intro h
      cases h
      exact ⟨i, rfl, rfl⟩
    · rintro ⟨i', hr, rfl⟩
      cases hr
      rfl

theorem place?_row {index : Nat} : r.place? (.row name index) = some (place, row) ↔
    ∃ i, r.resolveTable name = .ok (i, row) ∧ place = (i, some index) := by
  rw [place?]
  cases r.resolveTable name with
  | error e => simp [Except.toOption]
  | ok found =>
    obtain ⟨i, found⟩ := found
    constructor
    · intro h
      cases h
      exact ⟨i, rfl, rfl⟩
    · rintro ⟨i', hr, rfl⟩
      cases hr
      rfl

/-- A step that opens nothing leads nowhere. -/
theorem place?_openNested_error {cause : ModelError} (h : r.openNested name = .error cause) :
    r.place? (.nested name) = none := by
  cases hr : r.resolveNested name with
  | error e =>
    rw [place?, hr]
    rfl
  | ok found =>
    rw [openNested, hr] at h
    cases h

theorem place?_openTable_error {cause : ModelError} {index : Nat} (h : r.openTable name = .error cause) :
    r.place? (.row name index) = none := by
  cases hr : r.resolveTable name with
  | error e =>
    rw [place?, hr]
    rfl
  | ok found =>
    rw [openTable, hr] at h
    cases h

/-- What stands at the place of a step is of the shape that the step finds there. -/
theorem Sound.held_isOf (h : r.Sound) {step : Step} (hstep : r.place? step = some (place, shape))
    (hheld : r.held place = some x) : IsOf r.function shape x := by
  cases step with
  | nested name =>
    obtain ⟨i, hr, rfl⟩ := place?_nested.mp hstep
    obtain ⟨declared, description, hm⟩ := resolveNested_eq_ok hr
    have hslot := h.slotAt hm
    rw [held_nested.mp hheld] at hslot
    exact hslot
  | row name index =>
    obtain ⟨i, hr, rfl⟩ := place?_row.mp hstep
    obtain ⟨declared, description, hm⟩ := resolveTable_eq_ok hr
    obtain ⟨rows, hrows, hrow⟩ := held_row.mp hheld
    have hslot := h.slotAt hm
    rw [hrows] at hslot
    exact rowsSound_iff.mp hslot x (List.mem_of_getElem? hrow)

/-- An edit below a nested record changes that one. -/
theorem Sound.held_editNested (h : r.Sound) (hheld : r.held place = some x) (rest : List Step) (e : Edit) :
    (r.editBelow (.nested name :: rest) e).held place =
      some (if (r.place? (.nested name)).map (·.1) = some place then x.editBelow rest e else x) := by
  rw [editBelow_nested]
  cases hopen : r.openNested name with
  | error cause =>
    rw [place?_openNested_error hopen, Option.map_none, if_neg (Option.some_ne_none place).symm]
    exact hheld
  | ok opened =>
    obtain ⟨j, inner⟩ := opened
    obtain ⟨shape, hr, hsame⟩ := openNested_held hopen
    obtain ⟨declared, description, hm⟩ := resolveNested_eq_ok hr
    rw [place?_nested.mpr ⟨j, hr, rfl⟩, Option.map_some]
    by_cases hj : place.1 = j
    · obtain ⟨i, _ | index⟩ := place
      · obtain rfl : i = j := hj
        have hslot := held_nested.mp hheld
        rw [if_pos rfl, hsame x hslot]
        exact held_nested.mpr (h.slotAt_putSlot hm _)
      · obtain rfl : i = j := hj
        obtain ⟨rows, hrows, -⟩ := held_row.mp hheld
        exact (h.slotAt_nested hm rows hrows).elim
    · have hplace : some (j, none) ≠ some place := by
        rintro he
        cases he
        exact hj rfl
      rw [if_neg hplace]
      exact (held_putSlot_ne hj).trans hheld

/-- An edit below a row changes that one. -/
theorem Sound.held_editRow (h : r.Sound) {index : Nat} (hheld : r.held place = some x) (rest : List Step) (e : Edit) :
    (r.editBelow (.row name index :: rest) e).held place =
      some (if (r.place? (.row name index)).map (·.1) = some place then x.editBelow rest e else x) := by
  rw [editBelow_row]
  cases hopen : r.openTable name with
  | error cause =>
    rw [place?_openTable_error hopen, Option.map_none, if_neg (Option.some_ne_none place).symm]
    exact hheld
  | ok opened =>
    obtain ⟨j, row, rows⟩ := opened
    obtain ⟨hr, hsame⟩ := openTable_held hopen
    obtain ⟨declared, description, hm⟩ := resolveTable_eq_ok hr
    rw [place?_row.mpr ⟨j, hr, rfl⟩, Option.map_some]
    by_cases hj : place.1 = j
    · obtain ⟨i, _ | index'⟩ := place
      · obtain rfl : i = j := hj
        exact (h.slotAt_table hm x (held_nested.mp hheld)).elim
      · obtain rfl : i = j := hj
        obtain ⟨rows', hslot, hrow⟩ := held_row.mp hheld
        obtain rfl := hsame rows' hslot
        by_cases hindex : index = index'
        · subst hindex
          rw [if_pos rfl]
          exact held_row.mpr ⟨_, h.slotAt_putSlot hm _, by simp [hrow]⟩
        · have hplace : some ((i, some index) : Held) ≠ some (i, some index') := by
            rintro he
            cases he
            exact hindex rfl
          rw [if_neg hplace]
          exact held_row.mpr ⟨_, h.slotAt_putSlot hm _, by simp [hrow, hindex]⟩
    · have hplace : some (j, some index) ≠ some place := by
        rintro he
        cases he
        exact hj rfl
      rw [if_neg hplace]
      exact (held_putSlot_ne hj).trans hheld

/-- The record at a place is changed by an edit that leads through the place, and by no other. -/
theorem Sound.held_editBelow (h : r.Sound) (hheld : r.held place = some x) (path : List Step) (e : Edit) :
    (r.editBelow path e).held place = some (match path with
      | [] => x
      | step :: rest => if (r.place? step).map (·.1) = some place then x.editBelow rest e else x) := by
  cases path with
  | nil => exact held_of_extends (h.edit_extends e place.1) hheld
  | cons step rest =>
    cases step with
    | nested name => exact h.held_editNested hheld rest e
    | row name index => exact h.held_editRow hheld rest e

/-- A table keeps its rows, as far as their number goes; what happens to each of them is told above. -/
theorem Sound.rows_editBelow (h : r.Sound) {rows : List Record} (hslot : r.slotAt i = .table rows) (path : List Step)
    (e : Edit) : ∃ rows', (r.editBelow path e).slotAt i = .table rows' ∧ rows.length ≤ rows'.length := by
  cases path with
  | nil =>
    have hextends := h.edit_extends e i
    rw [hslot] at hextends
    obtain ⟨more, hmore⟩ := hextends
    exact ⟨rows ++ more, hmore, by simp⟩
  | cons step rest =>
    cases step with
    | nested name =>
      rw [editBelow_nested]
      cases hopen : r.openNested name with
      | error cause => exact ⟨rows, hslot, le_rfl⟩
      | ok opened =>
        obtain ⟨j, inner⟩ := opened
        obtain ⟨shape, hr, -⟩ := openNested_held hopen
        obtain ⟨declared, description, hm⟩ := resolveNested_eq_ok hr
        have hne : i ≠ j := by
          rintro rfl
          exact h.slotAt_nested hm rows hslot
        exact ⟨rows, (slotAt_putSlot_ne hne).trans hslot, le_rfl⟩
    | row name index =>
      rw [editBelow_row]
      cases hopen : r.openTable name with
      | error cause => exact ⟨rows, hslot, le_rfl⟩
      | ok opened =>
        obtain ⟨j, row, opened⟩ := opened
        obtain ⟨hr, hsame⟩ := openTable_held hopen
        obtain ⟨declared, description, hm⟩ := resolveTable_eq_ok hr
        by_cases hij : i = j
        · subst hij
          obtain rfl := hsame rows hslot
          exact ⟨_, h.slotAt_putSlot hm _, by rw [List.length_modify]⟩
        · exact ⟨rows, (slotAt_putSlot_ne hij).trans hslot, le_rfl⟩

theorem nested_eq_ok : r.nested name = .ok (some x) ↔
    ∃ i shape, r.resolveNested name = .ok (i, shape) ∧ r.slotAt i = .nested x := by
  rw [Record.nested, Outcome.map_eq_ok]
  constructor
  · rintro ⟨⟨i, shape⟩, hr, h⟩
    simp only at h
    split at h
    · rename_i inner hslot
      cases h
      exact ⟨i, shape, hr, hslot⟩
    · cases h
  · rintro ⟨i, shape, hr, hslot⟩
    exact ⟨(i, shape), hr, by simp only [hslot]⟩

theorem table_eq_ok {rows : List Record} : r.table name = .ok (row, some rows) ↔
    ∃ i, r.resolveTable name = .ok (i, row) ∧ r.slotAt i = .table rows := by
  rw [Record.table, Outcome.map_eq_ok]
  constructor
  · rintro ⟨⟨i, row'⟩, hr, h⟩
    simp only at h
    split at h
    · rename_i rows' hslot
      cases h
      exact ⟨i, hr, hslot⟩
    · cases h
  · rintro ⟨i, hr, hslot⟩
    exact ⟨(i, row), hr, by simp only [hslot]⟩

/-- A path leads through the record at the place of its first step. -/
theorem atPath_cons_ok {step : Step} {rest : List Step} : r.atPath (step :: rest) = .ok x ↔
    ∃ place shape inner, r.place? step = some (place, shape) ∧ r.held place = some inner ∧ inner.atPath rest = .ok x := by
  cases step with
  | nested name =>
    constructor
    · intro h
      rw [atPath] at h
      split at h
      · cases h
      · cases h
      · rename_i inner hnested
        obtain ⟨i, shape, hr, hslot⟩ := nested_eq_ok.mp hnested
        exact ⟨_, _, inner, place?_nested.mpr ⟨i, hr, rfl⟩, held_nested.mpr hslot, h⟩
    · rintro ⟨place, shape, inner, hplace, hheld, h⟩
      obtain ⟨i, hr, rfl⟩ := place?_nested.mp hplace
      rw [atPath, nested_eq_ok.mpr ⟨i, shape, hr, held_nested.mp hheld⟩]
      exact h
  | row name index =>
    constructor
    · intro h
      rw [atPath] at h
      split at h
      · cases h
      rename_i row rows htable
      split at h
      · cases h
      rename_i inner hrow
      cases rows with
      | none => cases hrow
      | some rows =>
        obtain ⟨i, hr, hslot⟩ := table_eq_ok.mp htable
        exact ⟨_, _, inner, place?_row.mpr ⟨i, hr, rfl⟩, held_row.mpr ⟨rows, hslot, hrow⟩, h⟩
    · rintro ⟨place, shape, inner, hplace, hheld, h⟩
      obtain ⟨i, hr, rfl⟩ := place?_row.mp hplace
      obtain ⟨rows, hslot, hrow⟩ := held_row.mp hheld
      rw [atPath, table_eq_ok.mpr ⟨i, hr, hslot⟩]
      simp only [Option.getD_some, hrow]
      exact h

theorem Sound.atPath_sound {p : List Step} (h : r.Sound) (hx : r.atPath p = .ok x) : x.Sound := by
  induction p generalizing r with
  | nil =>
    cases hx
    exact h
  | cons step rest ih =>
    obtain ⟨place, shape, inner, hplace, hheld, hinner⟩ := atPath_cons_ok.mp hx
    exact ih (h.held_isOf hplace hheld).2.2 hinner

/-! ## Runs -/

theorem Sound.editBelow_isOf (h : r.Sound) (path : List Step) (e : Edit) : IsOf r.function r.shape (r.editBelow path e) :=
  h.editAt (fun _ h => h.edit e) path

/-- What stands at the end of a path is changed by an edit that leads through there, and by no other. -/
theorem Sound.atPath_editBelow {p : List Step} (q : List Step) (e : Edit) (h : r.Sound) (hx : r.atPath p = .ok x) :
    (r.editBelow q e).atPath p = .ok (match through r.function r.shape p q with
      | some rest => x.editBelow rest e
      | none => x) := by
  induction p generalizing r q with
  | nil =>
    cases hx
    rfl
  | cons step rest ih =>
    obtain ⟨place, shape, inner, hplace, hheld, hinner⟩ := atPath_cons_ok.mp hx
    obtain ⟨hf, hs, hsound⟩ := h.held_isOf hplace hheld
    obtain ⟨hf', hs', -⟩ := h.editBelow_isOf q e
    -- the step means the same place behind the edit
    have hplace' : (r.editBelow q e).place? step = some (place, shape) := by
      rw [place?_eq, hf', hs', ← place?_eq, hplace]
    refine atPath_cons_ok.mpr ⟨place, shape, _, hplace', h.held_editBelow hheld q e, ?_⟩
    cases q with
    | nil => exact hinner
    | cons step' path =>
      rw [through, ← place?_eq, ← place?_eq, hplace]
      cases hplace₂ : r.place? step' with
      | none => simpa only [hplace₂, Option.map_none, reduceCtorEq, if_false] using hinner
      | some found =>
        obtain ⟨place', shape'⟩ := found
        by_cases hsame : place = place'
        · subst hsame
          simp only [hplace₂, Option.map_some, if_true]
          have hedit := ih path hsound hinner
          rwa [hf, hs] at hedit
        · have hother : ¬ some place' = some place := fun he => hsame (Option.some.inj he).symm
          simp only [hplace₂, Option.map_some, if_neg hother, if_neg hsame]
          exact hinner

theorem Sound.run_isOf (h : r.Sound) (es : List (List Step × Edit)) : IsOf r.function r.shape (r.run es) := by
  induction es generalizing r with
  | nil => exact ⟨rfl, rfl, h⟩
  | cons e es ih =>
    obtain ⟨hf, hs, hsound⟩ := h.editBelow_isOf e.1 e.2
    have hrun := ih hsound
    rwa [hf, hs] at hrun

theorem directed_cons (p : List Step) (e : List Step × Edit) (es : List (List Step × Edit)) : r.directed p (e :: es) =
    match through r.function r.shape p e.1 with
    | some rest => (rest, e.2) :: r.directed p es
    | none => r.directed p es := by
  rw [directed, directed, List.filterMap_cons]
  cases through r.function r.shape p e.1 <;> rfl

/-- What stands at the end of a path stays there, changed by the edits that lead through there and by no others. -/
theorem Sound.atPath_run {p : List Step} (es : List (List Step × Edit)) (h : r.Sound) (hx : r.atPath p = .ok x) :
    (r.run es).atPath p = .ok (x.run (r.directed p es)) := by
  induction es generalizing r x with
  | nil => exact hx
  | cons e es ih =>
    obtain ⟨hf, hs, hsound⟩ := h.editBelow_isOf e.1 e.2
    have hstep := h.atPath_editBelow e.1 e.2 hx
    have hrun := ih hsound hstep
    have hdirected : (r.editBelow e.1 e.2).directed p es = r.directed p es := by rw [directed, directed, hf, hs]
    rw [hdirected] at hrun
    show ((r.editBelow e.1 e.2).run es).atPath p = _
    rw [hrun, directed_cons]
    cases through r.function r.shape p e.1 with
    | none => rfl
    | some rest => rfl

/-- A table that is there stays, with no fewer rows. -/
theorem Sound.rows_run {rows : List Record} (es : List (List Step × Edit)) (h : r.Sound) (hslot : r.slotAt i = .table rows) :
    ∃ rows', (r.run es).slotAt i = .table rows' ∧ rows.length ≤ rows'.length := by
  induction es generalizing r rows with
  | nil => exact ⟨rows, hslot, le_rfl⟩
  | cons e es ih =>
    obtain ⟨rows₁, hslot₁, hle₁⟩ := h.rows_editBelow hslot e.1 e.2
    obtain ⟨rows₂, hslot₂, hle₂⟩ := ih (h.editBelow_isOf e.1 e.2).2.2 hslot₁
    exact ⟨rows₂, hslot₂, Nat.le_trans hle₁ hle₂⟩

theorem Sound.table_run (h : r.Sound) {rows : List Record} (es : List (List Step × Edit))
    (htable : r.table name = .ok (row, some rows)) :
    ∃ rows', (r.run es).table name = .ok (row, some rows') ∧ rows.length ≤ rows'.length := by
  obtain ⟨i, hr, hslot⟩ := table_eq_ok.mp htable
  obtain ⟨hf, hs, -⟩ := h.run_isOf es
  obtain ⟨rows', hslot', hle⟩ := h.rows_run es hslot
  exact ⟨rows', table_eq_ok.mpr ⟨i, (resolveTable_congr hf hs name).trans hr, hslot'⟩, hle⟩

end Record

end DocWire
