/-
  DocWire.Proofs.Field.Entry — the entries of a segment or a record: declared fields with their values.

  An entry has a wire string or a cause why it has none. Of several entries, the first without one decides.
-/

import DocWire.Proofs.Field.Coercion
import DocWire.Schema.Field

namespace DocWire

/-- The wire string of an entry. -/
def wireOf (e : FieldDecl × Value) : String := Coercion.wireText e.1.format e.2

/-- The value of an entry has a wire string. -/
def Encodes (e : FieldDecl × Value) : Prop := Coercion.encode e.1.format e.2 = .ok (wireOf e)

/-- An entry that has any wire string has this one. -/
theorem encodes_of_ok {e : FieldDecl × Value} {wire : String} (h : Coercion.encode e.1.format e.2 = .ok wire) :
    Encodes e := by
  rw [Encodes, h, (Coercion.encode_eq_ok.mp h).2.2]
  rfl

theorem not_encodes_iff {e : FieldDecl × Value} : ¬ Encodes e ↔ ∃ cause, Coercion.encode e.1.format e.2 = .error cause := by
  constructor
  · intro h
    cases hencode : Coercion.encode e.1.format e.2 with
    | ok wire => exact absurd (encodes_of_ok hencode) h
    | error cause => exact ⟨cause, rfl⟩
  · rintro ⟨cause, hcause⟩ h
    rw [Encodes, hcause] at h
    cases h

/-- Why the value of an entry has no wire string. -/
def fault? (e : FieldDecl × Value) : Option CoercionError :=
  match Coercion.encode e.1.format e.2 with
  | .ok _ => none
  | .error cause => some cause

/-- The first entry without a wire string, with the cause. -/
def firstFault? (entries : List (FieldDecl × Value)) : Option ((FieldDecl × Value) × CoercionError) :=
  entries.findSome? fun e => (fault? e).map fun cause => (e, cause)

theorem firstFault?_append (entries more : List (FieldDecl × Value)) :
    firstFault? (entries ++ more) = (firstFault? entries).or (firstFault? more) :=
  List.findSome?_append

theorem firstFault?_eq_none {entries : List (FieldDecl × Value)} : firstFault? entries = none ↔ ∀ e ∈ entries, Encodes e := by
  rw [firstFault?, List.findSome?_eq_none_iff]
  refine forall₂_congr fun e _ => ?_
  rw [Option.map_eq_none_iff, fault?]
  cases hencode : Coercion.encode e.1.format e.2 with
  | ok wire => exact iff_of_true rfl (encodes_of_ok hencode)
  | error cause => exact iff_of_false (fun h => by cases h) (not_encodes_iff.mpr ⟨cause, hencode⟩)

end DocWire
