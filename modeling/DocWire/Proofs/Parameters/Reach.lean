/-
  DocWire.Proofs.Parameters.Reach — the parameter sets that can come about.

  A parameter set begins as the empty request or response of a function, and is then changed by edits, in any
  order, anywhere below it; an edit that fails leaves what it was made on as it was, though nested records and
  tables on the way to it stay made.
-/

import DocWire.Proofs.Parameters.Sound
import DocWire.Schema.Registry

namespace DocWire.Record

inductive Edit where
  | set (name : String) (value : Value)
  | setWire (name text : String)
  | unset (name : String)
  | makeNested (name : String)
  | makeTable (name : String)
  | addRow (name : String)

def attempt (r : Record) : Edit → Except ModelError Record
  | .set name value => r.set name value
  | .setWire name text => r.setWire name text
  | .unset name => r.unset name
  | .makeNested name => (r.makeNested name).map (·.1)
  | .makeTable name => (r.makeTable name).map (·.1)
  | .addRow name => (r.addRow name).map (·.1)

/-- The record behind an edit: the same one when the edit fails. -/
def edit (r : Record) (e : Edit) : Record :=
  match r.attempt e with
  | .ok r => r
  | .error _ => r

/-- The record behind an edit of the record at the end of a path. -/
def editBelow (r : Record) (path : List Step) (e : Edit) : Record := (r.editAt (fun r => (r.edit e, ())) path).1

inductive Reach (reg : Registry) : Record → Prop
  | request (f : Function) : f ∈ reg.functions → Reach reg (.request f)
  | response (f : Function) : f ∈ reg.functions → Reach reg (.response f)
  | edit (r : Record) (path : List Step) (e : Edit) : Reach reg r → Reach reg (r.editBelow path e)

variable {reg : Registry} {r : Record}

theorem Sound.attempt (h : r.Sound) {e : Edit} {r' : Record} (hok : r.attempt e = .ok r') :
    IsOf r.function r.shape r' := by
  cases e with
  | set name value => exact h.changeField (fun _ _ => FieldDecl.accept_kind) hok
  | setWire name text => exact h.changeField (fun _ _ => FieldDecl.acceptWire_kind) hok
  | unset name =>
    have hchange : r.changeField name (fun _ => .ok none) = .ok r' := hok
    exact h.changeField (fun decl v hv => by cases hv) hchange
  | makeNested name =>
    obtain ⟨⟨r', inner⟩, hmake, rfl⟩ := Outcome.map_eq_ok.mp hok
    exact h.makeNested hmake
  | makeTable name =>
    obtain ⟨⟨r', row, rows⟩, hmake, rfl⟩ := Outcome.map_eq_ok.mp hok
    exact h.makeTable hmake
  | addRow name =>
    obtain ⟨⟨r', row, rows⟩, hmake, rfl⟩ := Outcome.map_eq_ok.mp hok
    exact h.addRow hmake

theorem Sound.edit (h : r.Sound) (e : Edit) : IsOf r.function r.shape (r.edit e) := by
  unfold Record.edit
  split
  · rename_i hok
    exact h.attempt hok
  · exact ⟨rfl, rfl, h⟩

/-- Whatever comes about is the request or the response of a function, and sound. -/
theorem Reach.sound (h : Reach reg r) :
    r.function ∈ reg.functions ∧ (r.shape = r.function.request ∨ r.shape = r.function.response) ∧ r.Sound := by
  induction h with
  | request f hf => exact ⟨hf, .inl rfl, blank_sound _ _⟩
  | response f hf => exact ⟨hf, .inr rfl, blank_sound _ _⟩
  | edit r path e _ ih =>
    obtain ⟨hf, hshape, hsound⟩ := ih
    obtain ⟨hf', hs', hsound'⟩ : IsOf r.function r.shape (r.editBelow path e) :=
      hsound.editAt (fun r h => h.edit e) path
    rw [hf', hs']
    exact ⟨hf, hshape, hsound'⟩

end DocWire.Record
