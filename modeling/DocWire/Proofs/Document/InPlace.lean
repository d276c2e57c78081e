/-
  DocWire.Proofs.Document.InPlace — edits that change a document in place.

  An edit changes the document that it is made on, and what it has written stays written when it fails later. It is
  answered: an unset field with the value that it had, a new child with its number. `perform` makes an edit in this way,
  step by step. It comes to what `attempt` says, which yields another document or none (`perform_on`): every edit makes
  all its checks before it writes anything.
-/

import DocWire.Proofs.Document.Reach

namespace DocWire.Document

variable {d : Document}

/-- What an edit is answered with. -/
inductive Answer where
  | done
  /-- The value that the field had. -/
  | former (value? : Option Value)
  /-- The number of the new segment. -/
  | added (id : Nat)

/-- An operation on a document that is changed in place. -/
abbrev Editing (α : Type) := ExceptT ModelError (StateM Document) α

namespace Editing

def segmentAt (id : Nat) : Editing Segment := do
  match (← MonadState.get).segment? id with
  | none => throw (.noSegment id)
  | some s => return s

/-- The segment, and the place of the declared field that a name means there. -/
def fieldAt (id : Nat) (name : String) : Editing (Segment × Nat × FieldDecl) := do
  let s ← segmentAt id
  let (i, decl) ← MonadExcept.ofExcept (s.resolve (← MonadState.get).schema.ns name)
  return (s, i, decl)

/-- Writes the value at a place of a segment; none takes away what is there. -/
def write (id : Nat) (s : Segment) (i : Nat) (value? : Option Value) : Editing Unit :=
  modify (·.putFields id (s.fields.set i value?))

def push (s : Segment) : Editing Unit := modify fun d => { d with segments := d.segments.push s }

/-- Lists a segment as the last child of another. -/
def list (id child : Nat) : Editing Unit :=
  modify fun d => { d with segments := d.segments.modify id fun s => { s with children := s.children ++ [child] } }

end Editing

open Editing in
/-- Makes an edit step by step, on the document itself. -/
def perform : Edit → Editing Answer
  | .setHeader field value => do
    modify (·.setHeader field value)
    return .done
  | .unsetHeader field => do
    modify (·.unsetHeader field)
    return .done
  | .set id name value => do
    let (s, i, decl) ← fieldAt id name
    let value? ← MonadExcept.ofExcept (decl.accept value)
    write id s i value?
    return .done
  | .setWire id name text => do
    let (s, i, decl) ← fieldAt id name
    let value? ← MonadExcept.ofExcept (decl.acceptWire text)
    write id s i value?
    return .done
  | .unset id name => do
    let (s, i, _) ← fieldAt id name
    write id s i none
    return .former (s.fields[i]?).join
  | .addChild id name => do
    let d ← MonadState.get
    let s ← segmentAt id
    match d.schema.childOf? s.type name with
    | none => throw (.unknownChild s.type.name name)
    | some (slot, type) =>
      if (d.childrenNamed s slot.segmentType).length < slot.maxOccurrence then
        push (.blank type (some id) (s.level + 1))
        list id d.segmentCount
        return .added d.segmentCount
      else throw (.occurrenceExceeded s.type.name slot.segmentType slot.maxOccurrence)

/-- What an edit that succeeds is answered with. -/
def answer (d : Document) : Edit → Answer
  | .unset id name => .former (d.get id name).toOption.join
  | .addChild _ _ => .added d.segmentCount
  | _ => .done

section

open Editing Outcome

theorem segmentAt_inPlace (id : Nat) (d : Document) : inPlace (segmentAt id) d =
    match d.segment? id with
    | none => (.error (.noSegment id), d)
    | some s => (.ok s, d) := by
  simp only [segmentAt, inPlace_bind, inPlace_get]
  cases d.segment? id <;> rfl

/-- Finding a field fails as a change of it does, and touches nothing. -/
theorem fieldAt_inPlace (id : Nat) (name : String) (d : Document) : inPlace (fieldAt id name) d =
    match d.segment? id with
    | none => (.error (.noSegment id), d)
    | some s => ((s.resolve d.schema.ns name).map fun (i, decl) => (s, i, decl), d) := by
  simp only [fieldAt, inPlace_bind, segmentAt_inPlace]
  cases d.segment? id with
  | none => rfl
  | some s =>
    simp only [inPlace_get, inPlace_ofExcept]
    cases s.resolve d.schema.ns name <;> rfl

/-- In place or in one piece, a change of a field comes to the same. -/
theorem change_inPlace (id : Nat) (name : String) (change : FieldDecl → Except ModelError (Option Value)) (d : Document) :
    inPlace (do
      let (s, i, decl) ← fieldAt id name
      let value? ← MonadExcept.ofExcept (change decl)
      write id s i value?
      return Answer.done) d =
    match d.changeField id name change with
    | .ok d' => (.ok .done, d')
    | .error cause => (.error cause, d) := by
  simp only [inPlace_bind, fieldAt_inPlace, inPlace_ofExcept, changeField]
  cases d.segment? id with
  | none => rfl
  | some s =>
    simp only
    cases s.resolve d.schema.ns name with
    | error cause => rfl
    | ok found =>
      simp only [map_ok]
      cases change found.2 <;> rfl

theorem perform_on (e : Edit) : inPlace (perform e) d =
    match d.attempt e with
    | .ok d' => (.ok (d.answer e), d')
    | .error cause => (.error cause, d) := by
  cases e with
  | setHeader field value => rfl
  | unsetHeader field => rfl
  | set id name value => exact change_inPlace id name (·.accept value) d
  | setWire id name text => exact change_inPlace id name (·.acceptWire text) d
  | unset id name =>
    simp only [perform, attempt, unset, answer, Document.get, Segment.get, inPlace_bind, fieldAt_inPlace, changeField]
    cases d.segment? id with
    | none => rfl
    | some s =>
      simp only
      cases s.resolve d.schema.ns name <;> rfl
  | addChild id name =>
    simp only [perform, attempt, addChild, answer, inPlace_bind, inPlace_get, segmentAt_inPlace]
    cases d.segment? id with
    | none => rfl
    | some s =>
      simp only
      cases d.schema.childOf? s.type name with
      | none => rfl
      | some found =>
        obtain ⟨slot, type⟩ := found
        simp only
        split <;> rfl

end

end DocWire.Document
