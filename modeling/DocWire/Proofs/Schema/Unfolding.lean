/-
  DocWire.Proofs.Schema.Unfolding — the shapes that structures come to.

  A structure refers to others by name. What it comes to is the tree that is left when every reference is replaced by
  what the structure of that name comes to (`Unfolds`); nothing else is said of it, neither where the definitions stand
  nor which of them is compiled first. Where names are distinct there is one such tree at most (`unfolds_unique`), and
  there is none where references lead back to where they start, since what stands below a tree is smaller
  (`Unfolds.acyclic`).
-/

import DocWire.Proofs.Schema.Shape
import Mathlib.Logic.Relation

namespace DocWire

/-- What holds of a shape whenever it holds of all that its members refer to holds of all shapes. -/
theorem Shape.induction {P : Shape → Prop}
    (h : ∀ s : Shape, (∀ m ∈ s.members, ∀ t, m.reference? = some t → P t) → P s) (s : Shape) : P s := by
  refine h s ?_
  intro m hm t ht
  exact Shape.induction h t
termination_by sizeOf s
decreasing_by
  have hmember := List.sizeOf_lt_of_mem hm
  cases s with
  | mk name description members =>
    cases m with
    | field _ => cases ht
    | nested _ _ shape | table _ _ shape =>
      cases ht
      simp only [Shape.members, Member.nested.sizeOf_spec, Member.table.sizeOf_spec, Shape.mk.sizeOf_spec] at hmember ⊢
      omega

namespace Compile

mutual

/-- A shape is that of the structure `name`: the definition of that name, its references replaced by the shapes of the
structures that they name. -/
def Unfolds (defs : List StructureDef) (name : String) : Shape → Prop
  | .mk shapeName description members =>
    shapeName = name ∧ ∃ d ∈ defs, d.name = name ∧ d.description = description ∧ UnfoldsAll defs d.members members

def UnfoldsAll (defs : List StructureDef) : List (Member String) → List (Member Shape) → Prop
  | [], [] => True
  | m :: rest, m' :: rest' => UnfoldsMember defs m m' ∧ UnfoldsAll defs rest rest'
  | _, _ => False

def UnfoldsMember (defs : List StructureDef) : Member String → Member Shape → Prop
  | .field decl, .field decl' => decl = decl'
  | .nested name description ref, .nested name' description' shape =>
    name = name' ∧ description = description' ∧ Unfolds defs ref shape
  | .table name description ref, .table name' description' row =>
    name = name' ∧ description = description' ∧ Unfolds defs ref row
  | _, _ => False

end

variable {defs defs' : List StructureDef} {name : String} {s t : Shape} {members : List (Member String)}
  {ms ms' : List (Member Shape)}

theorem unfoldsMember_iff {m : Member String} {m' : Member Shape} :
    UnfoldsMember defs m m' ↔ m.Corresponds (Unfolds defs) m' := by
  constructor
  · intro h
    cases m <;> cases m' <;> simp only [UnfoldsMember] at h
    · rw [h]
      exact .field _
    · obtain ⟨rfl, rfl, h⟩ := h
      exact .nested h
    · obtain ⟨rfl, rfl, h⟩ := h
      exact .table h
  · intro h
    cases h with
    | field => rfl
    | nested h | table h => exact ⟨rfl, rfl, h⟩

theorem unfoldsAll_iff : UnfoldsAll defs members ms ↔ List.Forall₂ (Member.Corresponds (Unfolds defs)) members ms := by
  induction members generalizing ms with
  | nil => cases ms <;> simp [UnfoldsAll]
  | cons m rest ih =>
    cases ms with
    | nil => simp [UnfoldsAll]
    | cons m' rest' => simp only [UnfoldsAll, unfoldsMember_iff, ih, List.forall₂_cons]

theorem unfolds_iff : Unfolds defs name s ↔ s.name = name ∧ ∃ d ∈ defs, d.name = name ∧ d.description = s.description ∧
    List.Forall₂ (Member.Corresponds (Unfolds defs)) d.members s.members := by
  cases s with
  | mk shapeName description members => simp only [Unfolds, unfoldsAll_iff, Shape.name, Shape.description, Shape.members]

theorem Unfolds.name_mem (h : Unfolds defs name s) : name ∈ defs.map (·.name) := by
  obtain ⟨-, d, hd, rfl, -⟩ := unfolds_iff.mp h
  exact List.mem_map_of_mem hd

/-- What a shape is made of depends on which definitions there are, and not on their order. -/
theorem Unfolds.mono (hsub : defs ⊆ defs') (h : Unfolds defs name s) : Unfolds defs' name s := by
  induction s using Shape.induction generalizing name with
  | h s ih =>
    obtain ⟨hname, d, hd, hdname, hdescription, hmembers⟩ := unfolds_iff.mp h
    refine unfolds_iff.mpr ⟨hname, d, hsub hd, hdname, hdescription, ?_⟩
    refine Pairing.imp_right hmembers ?_
    intro m m' hm' hm
    exact hm.imp fun ref t ht href => ih m' hm' t ht href

/-! ## One shape at most -/

/-- The definition of a structure is behind all its shapes. -/
theorem Unfolds.eq_mk (hn : (defs.map (·.name)).Nodup) {d : StructureDef} (hd : d ∈ defs) (h : Unfolds defs d.name s) :
    s = .mk d.name d.description s.members ∧ List.Forall₂ (Member.Corresponds (Unfolds defs)) d.members s.members := by
  obtain ⟨hname, d', hd', hdname, hdescription, hmembers⟩ := unfolds_iff.mp h
  obtain rfl := List.inj_on_of_nodup_map hn hd' hd hdname
  refine ⟨?_, hmembers⟩
  cases s with
  | mk shapeName description members =>
    obtain rfl : shapeName = d'.name := hname
    obtain rfl : d'.description = description := hdescription
    rfl

theorem corresponds_unique {R : String → Shape → Prop} (h : List.Forall₂ (Member.Corresponds R) members ms)
    (h' : List.Forall₂ (Member.Corresponds R) members ms')
    (hr : ∀ m ∈ ms, ∀ t, m.reference? = some t → ∀ ref u, R ref t → R ref u → t = u) : ms = ms' := by
  induction h generalizing ms' with
  | nil =>
    cases h'
    rfl
  | cons hm _ ih =>
    cases h' with
    | cons hm' hrest' =>
      rw [List.forall_mem_cons] at hr
      rw [ih hrest' hr.2]
      congr 1
      cases hm with
      | field =>
        cases hm'
        rfl
      | nested h =>
        cases hm' with
        | nested h' => rw [hr.1 _ rfl _ _ h h']
      | table h =>
        cases hm' with
        | table h' => rw [hr.1 _ rfl _ _ h h']

theorem unfolds_unique (hn : (defs.map (·.name)).Nodup) (h : Unfolds defs name s) (h' : Unfolds defs name t) : s = t := by
  induction s using Shape.induction generalizing name t with
  | h s ih =>
    obtain ⟨d, hd, rfl⟩ := List.mem_map.mp h.name_mem
    obtain ⟨hs, hmembers⟩ := h.eq_mk hn hd
    obtain ⟨ht, hmembers'⟩ := h'.eq_mk hn hd
    have hsame : s.members = t.members :=
      corresponds_unique hmembers hmembers' fun m hm u hu ref u' href href' => ih m hm u hu href href'
    rw [hs, ht, hsame]

theorem unfoldsAll_unique (hn : (defs.map (·.name)).Nodup) (h : UnfoldsAll defs members ms)
    (h' : UnfoldsAll defs members ms') : ms = ms' :=
  corresponds_unique (unfoldsAll_iff.mp h) (unfoldsAll_iff.mp h') fun _ _ _ _ _ _ => unfolds_unique hn

/-! ## No shape that holds itself -/

/-- The structure `a` has a member that refers to `b`. -/
def Refers (defs : List StructureDef) (a b : String) : Prop :=
  ∃ d ∈ defs, d.name = a ∧ ∃ m ∈ d.members, m.reference? = some b

theorem Unfolds.acyclic (hn : (defs.map (·.name)).Nodup) (h : Unfolds defs name s) :
    ¬ Relation.TransGen (Refers defs) name name := by
  induction s using Shape.induction generalizing name with
  | h s ih =>
    intro hcycle
    -- the cycle also leads from the structure that is referred to first to itself
    obtain ⟨next, hrefers, hback⟩ := Relation.TransGen.head'_iff.mp hcycle
    have hnext : Relation.TransGen (Refers defs) next next := .tail' hback hrefers
    obtain ⟨d, hd, rfl, m, hm, href⟩ := hrefers
    obtain ⟨-, hmembers⟩ := h.eq_mk hn hd
    obtain ⟨m', hm', hcorresponds⟩ := Pairing.left hmembers hm
    obtain ⟨t, ht, hunfolds⟩ := hcorresponds.left href
    exact ih m' hm' t ht hunfolds hnext

end Compile

end DocWire
