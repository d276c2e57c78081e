/-
  DocWire.Proofs.Schema.References — how the segment types of a message type refer to each other.

  The definition of a message type is a graph: the root lists child types, and so does every segment type
  that is listed. A segment type is reached where a chain of references leads to it from the root; the
  length of the chain is the level at which it is reached. What is listed and not reached plays no part.

  `WellFormed` is what a definition has to fulfil, said of the graph alone: every reached type is defined,
  none is the root, no list of children and no list of fields repeats a name, no chain comes back to where
  it was, and every type is reached at one level.

  Names run out along a chain, so what holds of a chain where it holds of all longer ones holds of every chain
  (`chain_induction`), and what is followed along chains is told by its steps alone (`follow_unique`).
-/

import DocWire.Schema.Compile

namespace DocWire

namespace MessageDef

/-- The segment types that are listed. -/
def listed (d : MessageDef) : List String := d.segments.map (·.segmentType)

/-- A chain of `n` references leads from the root to a segment type. -/
inductive Reaches (d : MessageDef) : Nat → String → Prop
  | top {c : ChildDef} : c ∈ d.root → Reaches d 1 c.segmentType
  | child {n : Nat} {s : SegmentDef} {c : ChildDef} :
      Reaches d n s.segmentType → s ∈ d.segments → c ∈ s.children → Reaches d (n + 1) c.segmentType

/-- The definition of a segment type lists another among its children. -/
def Refers (d : MessageDef) (a b : String) : Prop :=
  ∃ s ∈ d.segments, s.segmentType = a ∧ ∃ c ∈ s.children, c.segmentType = b

structure WellFormed (d : MessageDef) : Prop where
  distinct : d.listed.Nodup
  noRoot : rootType ∉ d.listed
  rootUnreached : ∀ n, ¬ d.Reaches n rootType
  defined : ∀ n name, d.Reaches n name → name ∈ d.listed
  rootChildren : (d.root.map (·.segmentType)).Nodup
  children : ∀ n, ∀ s ∈ d.segments, d.Reaches n s.segmentType → (s.children.map (·.segmentType)).Nodup
  fields : ∀ n, ∀ s ∈ d.segments, d.Reaches n s.segmentType → (s.fields.map (·.name)).Nodup
  acyclic : ∀ n name, d.Reaches n name → ¬ Relation.TransGen d.Refers name name
  oneLevel : ∀ m n name, d.Reaches m name → d.Reaches n name → m = n

theorem Reaches.refers {d : MessageDef} {n : Nat} {a b : String} (h : d.Reaches n a) (hr : d.Refers a b) :
    d.Reaches (n + 1) b := by
  obtain ⟨s, hs, rfl, c, hc, rfl⟩ := hr
  exact .child h hs hc

/-- A chain of references that goes on from a reached type reaches its end at a deeper level. -/
theorem Reaches.chain {d : MessageDef} {n : Nat} {a b : String} (h : d.Reaches n a)
    (hc : Relation.TransGen d.Refers a b) : ∃ m, n < m ∧ d.Reaches m b := by
  induction hc with
  | single hr => exact ⟨n + 1, by omega, h.refers hr⟩
  | tail _ hr ih =>
    obtain ⟨m, hm, hb⟩ := ih
    exact ⟨m + 1, by omega, hb.refers hr⟩

end MessageDef

namespace Compile

/-! ## Chains -/

/-- What holds of a chain where it holds of all that have one name more holds of every chain: names run out. -/
theorem chain_induction (names : List String) {P : List String → Prop}
    (h : ∀ chain, (∀ name ∈ names, name ∉ chain → P (chain ++ [name])) → P chain) (chain : List String) : P chain := by
  induction hspare : spare names chain using Nat.strongRecOn generalizing chain with
  | ind n ih =>
    refine h chain fun name hname hnew => ?_
    have habsent : chain.contains name = false := by simpa using hnew
    have hless := spare_push habsent hname
    exact ih _ (hspare ▸ hless) _ rfl

section

variable {β : Type} {names : List String}
  {step : (chain : List String) → ((name : String) → chain.contains name = false → name ∈ names → β) → β}

/-- All bounds that are no less than the names that can still be put on the chain come to the same. -/
theorem followWithin_room : ∀ (room room' : Nat) (chain : List String) (h : spare names chain ≤ room)
    (h' : spare names chain ≤ room'), followWithin names step room chain h = followWithin names step room' chain h' := by
  intro room
  induction room with
  | zero =>
    intro room' chain h h'
    cases room' with
    | zero => rfl
    | succ room' =>
      unfold followWithin
      congr 1
      funext name hnew hname
      exact absurd (Nat.lt_of_lt_of_le (spare_push hnew hname) h) (Nat.not_lt_zero _)
  | succ room ih =>
    intro room' chain h h'
    cases room' with
    | zero =>
      unfold followWithin
      congr 1
      funext name hnew hname
      exact absurd (Nat.lt_of_lt_of_le (spare_push hnew hname) h') (Nat.not_lt_zero _)
    | succ room' =>
      unfold followWithin
      congr 1
      funext name hnew hname
      exact ih room' (chain ++ [name]) _ _

/-- What is followed is followed by its steps, however deep they go. -/
theorem follow_eq (chain : List String) :
    follow names step chain = step chain fun name _ _ => follow names step (chain ++ [name]) := by
  have hmore : spare names chain ≤ spare names chain + 1 := Nat.le_succ _
  rw [follow, followWithin_room _ _ chain _ hmore, followWithin]
  congr 1
  funext name hnew hname
  exact followWithin_room _ _ (chain ++ [name]) _ _

/-- And nothing else is: the steps come to an end. -/
theorem follow_unique {value : List String → β} :
    (∀ chain, value chain = step chain fun name _ _ => value (chain ++ [name])) ↔ value = follow names step := by
  constructor
  · intro h
    have hall : ∀ chain, value chain = follow names step chain := by
      refine chain_induction names fun chain ih => ?_
      rw [h, follow_eq]
      congr 1
      funext name hnew hname
      exact ih name hname (by simpa using hnew)
    exact funext hall
  · rintro rfl
    exact follow_eq

end

/-! ## Repeated names -/

theorem firstRepeated?_eq_none {names : List String} : ∀ {seen : List String},
    firstRepeated? seen names = none ↔ names.Nodup ∧ ∀ n ∈ names, n ∉ seen := by
  induction names with
  | nil => intro seen; simp [firstRepeated?]
  | cons name rest ih =>
    intro seen
    simp only [firstRepeated?, List.contains_iff_mem, List.nodup_cons, List.mem_cons, forall_eq_or_imp]
    split
    · rename_i hm
      simp [hm]
    · rename_i hm
      rw [ih]
      constructor
      · rintro ⟨hn, hs⟩
        exact ⟨⟨fun h => hs name h List.mem_cons_self, hn⟩, hm,
          fun n h hx => hs n h (List.mem_cons_of_mem _ hx)⟩
      · rintro ⟨⟨hx, hn⟩, -, hs⟩
        refine ⟨hn, fun n h => ?_⟩
        simp only [List.mem_cons, not_or]
        exact ⟨fun e => hx (e ▸ h), hs n h⟩

theorem clashingSegment?_eq_none {defs : List SegmentDef} : ∀ {seen : List String},
    clashingSegment? seen defs = none ↔
      (defs.map (·.segmentType)).Nodup ∧ rootType ∉ defs.map (·.segmentType) ∧
        ∀ n ∈ defs.map (·.segmentType), n ∉ seen := by
  induction defs with
  | nil => intro seen; simp [clashingSegment?]
  | cons d rest ih =>
    intro seen
    simp only [clashingSegment?, Bool.or_eq_true, beq_iff_eq, List.contains_iff_mem, List.map_cons,
      List.nodup_cons, List.mem_cons, not_or, forall_eq_or_imp]
    split
    · rename_i hm
      rcases hm with hm | hm
      · simp [hm]
      · simp [hm]
    · rename_i hm
      rw [ih]
      simp only [not_or] at hm
      constructor
      · rintro ⟨hn, hr, hs⟩
        exact ⟨⟨fun h => hs _ h List.mem_cons_self, hn⟩, ⟨Ne.symm hm.1, hr⟩, hm.2,
          fun n h hx => hs n h (List.mem_cons_of_mem _ hx)⟩
      · rintro ⟨⟨hx, hn⟩, ⟨-, hr⟩, -, hs⟩
        refine ⟨hn, hr, fun n h => ?_⟩
        simp only [List.mem_cons, not_or]
        exact ⟨fun e => hx (e ▸ h), hs n h⟩

theorem compileFields_ok_iff {owner : String} {fields placed : List FieldDecl} :
    compileFields owner fields = .ok placed ↔
      (fields.map (·.name)).Nodup ∧
        placed = if fields.all (·.offset == 0) then placeFields 0 fields else fields := by
  unfold compileFields
  split
  · rename_i name h
    have : ¬ (fields.map (·.name)).Nodup := fun hn => by
      rw [firstRepeated?_eq_none.mpr ⟨hn, fun _ _ => List.not_mem_nil⟩] at h
      cases h
    simp [this]
  · rename_i h
    simp only [Except.ok.injEq]
    exact ⟨fun e => ⟨(firstRepeated?_eq_none.mp h).1, e.symm⟩, fun e => e.2.symm⟩

theorem placeFields_names (fields : List FieldDecl) :
    ∀ offset, (placeFields offset fields).map (·.name) = fields.map (·.name) := by
  induction fields with
  | nil => intro offset; rfl
  | cons f rest ih => intro offset; simp only [placeFields, List.map_cons, ih]

/-- Placing fields changes no name. -/
theorem compileFields_names {owner : String} {fields placed : List FieldDecl}
    (h : compileFields owner fields = .ok placed) : placed.map (·.name) = fields.map (·.name) := by
  obtain ⟨-, rfl⟩ := compileFields_ok_iff.mp h
  split
  · exact placeFields_names fields 0
  · rfl

end Compile

end DocWire
