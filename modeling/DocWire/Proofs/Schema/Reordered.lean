/-
  DocWire.Proofs.Schema.Reordered — the order of definitions plays no part.

  Structures, functions and the segment types of a message type are found by name, and names are distinct where a
  definition compiles. So whether it compiles, and what is found in the registry, is the same whatever order they stand
  in (`Definition.Reordered`): structures and functions are what their names unfold to, and a message type is compiled
  from its root, in the order of the children.

  - `structures_unfolded`: what compiles, what is found then, and that any other order gives the same.
-/

import DocWire.Proofs.Schema.Structures

namespace DocWire

/-- A message type with its segment types in another order. -/
def MessageDef.Reordered (d d' : MessageDef) : Prop :=
  d.segments.Perm d'.segments ∧ d' = { d with segments := d'.segments }

/-- The same definitions in another order: structures, functions, and the segment types of each message type. -/
structure Definition.Reordered (d d' : Definition) : Prop where
  structures : d.structures.Perm d'.structures
  functions : d.functions.Perm d'.functions
  messageTypes : List.Forall₂ MessageDef.Reordered d.messageTypes d'.messageTypes

theorem MessageDef.Reordered.symm {d d' : MessageDef} (h : d.Reordered d') : d'.Reordered d := by
  refine ⟨h.1.symm, ?_⟩
  rw [h.2]

theorem Definition.Reordered.symm {d d' : Definition} (h : d.Reordered d') : d'.Reordered d :=
  ⟨h.structures.symm, h.functions.symm, h.messageTypes.flip.imp fun _ _ hm => MessageDef.Reordered.symm hm⟩

namespace Compile

/-! ## Message types -/

/-- Segment types are compiled from what is found under their names. -/
theorem compileSegment_found (key : TypeKey) {defs defs' : List SegmentDef}
    (hfound : ∀ name, defs.find? (·.segmentType == name) = defs'.find? (·.segmentType == name)) :
    compileSegment key defs = compileSegment key defs' := by
  refine compilesSegments_iff.mp fun chain parent level name done => ?_
  have hsame := hfound name
  rw [compileSegment_eq, segmentStep, segmentStep]
  generalize defs.find? (·.segmentType == name) = found at hsame ⊢
  subst hsame
  rfl

theorem compileMessageType_reordered {d d' : MessageDef} (h : d.Reordered d') {m : MessageType}
    (hm : compileMessageType d = .ok m) : compileMessageType d' = .ok m := by
  obtain ⟨hperm, hsame⟩ := h
  unfold compileMessageType at hm ⊢
  split at hm
  · cases hm
  · rename_i hclash
    obtain ⟨hn, hroot, -⟩ := clashingSegment?_eq_none.mp hclash
    have hnames := hperm.map (·.segmentType)
    have hclash' : clashingSegment? [] d'.segments = none :=
      clashingSegment?_eq_none.mpr
        ⟨hnames.nodup_iff.mp hn, fun hx => hroot (hnames.mem_iff.mpr hx), fun _ _ => List.not_mem_nil⟩
    rw [hclash', hsame]
    simp only [← compileSegment_found d.key (Lookup.find?_perm (f := SegmentDef.segmentType) hn hperm)]
    exact hm

theorem compileMessageTypes_reordered {ds ds' : List MessageDef} (h : List.Forall₂ MessageDef.Reordered ds ds') :
    ∀ {seen : List TypeKey} {ms : List MessageType}, compileMessageTypes seen ds = .ok ms →
      compileMessageTypes seen ds' = .ok ms := by
  induction h with
  | nil =>
    intro seen ms hms
    exact hms
  | @cons d d' rest rest' hd _ ih =>
    intro seen ms hms
    have hkey : d'.key = d.key := by rw [hd.2]
    unfold compileMessageTypes at hms ⊢
    rw [hkey]
    split at hms
    · cases hms
    · rename_i hnew
      rw [if_neg hnew]
      split at hms
      · cases hms
      · rename_i m hm
        obtain ⟨ms', hms', rfl⟩ := Outcome.map_eq_ok.mp hms
        rw [compileMessageType_reordered hd hm, ih hms']
        rfl

/-! ## Structures and functions -/

theorem unfolds_reordered {defs defs' : List StructureDef} (h : defs.Perm defs') : Unfolds defs = Unfolds defs' := by
  funext name s
  exact propext ⟨Unfolds.mono h.subset, Unfolds.mono h.symm.subset⟩

theorem refers_reordered {defs defs' : List StructureDef} (h : defs.Perm defs') : Refers defs = Refers defs' := by
  funext a b
  simp only [Refers, h.mem_iff]

end Compile

theorem Definition.Reordered.unfoldable {d d' : Definition} (h : d.Reordered d') (hd : d.Unfoldable) :
    d'.Unfoldable := by
  have hlists : ∀ members ∈ d'.memberLists, members ∈ d.memberLists := by
    intro members hm
    rw [mem_memberLists] at hm ⊢
    simpa only [h.structures.mem_iff, h.functions.mem_iff] using hm
  have hnames := h.structures.map (·.name)
  refine ⟨hnames.nodup_iff.mp hd.structures, (h.functions.map (·.name)).nodup_iff.mp hd.functions, ?_, ?_, ?_⟩
  · intro members hm
    exact hd.members members (hlists members hm)
  · intro members hm m hmember ref href
    exact hnames.mem_iff.mp (hd.defined members (hlists members hm) m hmember ref href)
  · rw [← Compile.refers_reordered h.structures]
    exact hd.acyclic

namespace Registry

open Compile

variable {d d' : Definition} {r r' : Registry}

theorem compile_reordered (h : d.Reordered d') (hr : compile d = .ok r) : ∃ r', compile d' = .ok r' := by
  obtain ⟨hd, ms, hms⟩ := exists_compile_iff.mp ⟨r, hr⟩
  exact exists_compile_iff.mpr ⟨h.unfoldable hd, ms, compileMessageTypes_reordered h.messageTypes hms⟩

theorem structure?_reordered (h : d.Reordered d') (hr : compile d = .ok r) (hr' : compile d' = .ok r') (name : String) :
    r.structure? name = r'.structure? name := by
  refine Option.ext ?_
  intro s
  rw [structure?_eq_some hr, structure?_eq_some hr', unfolds_reordered h.structures]

theorem function_reordered (h : d.Reordered d') (hr : compile d = .ok r) (hr' : compile d' = .ok r') (name : String) :
    r.function name = r'.function name := by
  have hsame (f : Function) : r.function name = .ok f ↔ r'.function name = .ok f := by
    simp only [function_eq_ok hr, function_eq_ok hr', h.functions.mem_iff, UnfoldsFunction, unfoldsAll_iff,
      unfolds_reordered h.structures]
  cases hf : r.function name with
  | ok f => rw [(hsame f).mp hf]
  | error e =>
    cases hf' : r'.function name with
    | ok f =>
      rw [(hsame f).mpr hf'] at hf
      cases hf
    | error e' => rw [function_eq_error hf, function_eq_error hf']

theorem messageTypes_reordered (h : d.Reordered d') (hr : compile d = .ok r) (hr' : compile d' = .ok r') :
    r.messageTypes = r'.messageTypes := by
  have hms := compileMessageTypes_reordered h.messageTypes (compile_eq_ok hr).2.2
  rw [(compile_eq_ok hr').2.2, Except.ok.injEq] at hms
  exact hms.symm

/-- Structures and functions are compiled where they can be unfolded, and what is found then are their unfoldings: of a
structure its definition with the shapes that are found under its references, of a function both lists unfolded.
References are followed to an end: one that was followed for ever could be given any error, and the equation would have
more than one solution. In another order the same compiles, and the same is found. -/
theorem structures_unfolded (d : Definition) :
    ((∃ r, compile { d with messageTypes := [] } = .ok r) ↔ d.Unfoldable) ∧
    ((∃ r, compile d = .ok r) ↔ d.Unfoldable ∧ ∃ ms, compileMessageTypes [] d.messageTypes = .ok ms) ∧
    (∀ compile, CompilesShapes d.structures compile ↔ compile = compileShape d.structures) ∧
    (∀ r, compile d = .ok r →
      (∀ name s, r.structure? name = some s ↔ Unfolds d.structures name s) ∧
      (∀ g ∈ d.structures, ∃ members, r.structure? g.name = some (.mk g.name g.description members) ∧
        List.Forall₂ (Member.Corresponds fun ref s => r.structure? ref = some s) g.members members) ∧
      (∀ name f, r.function name = .ok f ↔ ∃ g ∈ d.functions, g.name = name ∧ UnfoldsFunction d.structures g f) ∧
      ∀ g ∈ d.functions, ∃ f, r.function g.name = .ok f) ∧
    ∀ d', d.Reordered d' →
      ((∃ r, compile d = .ok r) ↔ ∃ r', compile d' = .ok r') ∧
      ∀ r r', compile d = .ok r → compile d' = .ok r' →
        (∀ name, r.structure? name = r'.structure? name) ∧ (∀ name, r.function name = r'.function name) ∧
        (∀ key, r.messageType key = r'.messageType key) ∧ (∀ id, r.messageTypeById id = r'.messageTypeById id) ∧
        ∀ key, r.segment? key = r'.segment? key := by
  refine ⟨?_, exists_compile_iff, fun compile => compilesShapes_iff, ?_, ?_⟩
  · rw [exists_compile_iff]
    constructor
    · rintro ⟨h, -⟩
      exact ⟨h.structures, h.functions, h.members, h.defined, h.acyclic⟩
    · intro h
      exact ⟨⟨h.structures, h.functions, h.members, h.defined, h.acyclic⟩, [], rfl⟩
  · intro r hr
    refine ⟨fun name s => structure?_eq_some hr, ?_, fun name f => function_eq_ok hr, ?_⟩
    · intro g hg
      obtain ⟨s, -, hs⟩ := exists_unfolds hr (List.mem_map_of_mem hg)
      obtain ⟨heq, hmembers⟩ := hs.eq_mk (structures_nodup hr) hg
      refine ⟨s.members, ?_, ?_⟩
      · rw [structure?_eq_some hr, ← heq]
        exact hs
      · simpa only [structure?_eq_some hr] using hmembers
    · intro g hg
      obtain ⟨-, hcalled, -⟩ := compile_called hr
      obtain ⟨f, hf, hcalls⟩ := Pairing.left hcalled hg
      exact ⟨f, hcalls.name ▸ function_name hr hf⟩
  · intro d' h
    refine ⟨⟨fun ⟨r, hr⟩ => compile_reordered h hr, fun ⟨r', hr'⟩ => compile_reordered h.symm hr'⟩, ?_⟩
    intro r r' hr hr'
    have htypes := messageTypes_reordered h hr hr'
    have hkeys (key : TypeKey) : r.messageType key = r'.messageType key := by rw [messageType, messageType, htypes]
    refine ⟨structure?_reordered h hr hr', function_reordered h hr hr', hkeys, ?_, ?_⟩
    · intro id
      simp only [messageTypeById, hkeys]
    · intro key
      rw [segment?, segment?, htypes]

/-! ## Orders -/

/-- A call with a structure that is defined before the rows it refers to, and a message of two segment types. -/
def placing : Definition where
  structures := [
    { name := "ORDER", members := [.field { name := "NUMBER", type := .int4 }, .table "ITEMS" "" "ITEM"] },
    { name := "ITEM", members := [.field { name := "AMOUNT", type := .currency, length := 8, decimals := 2 }] }]
  functions := [
    { name := "PLACE", imports := [.nested "ORDER" "" "ORDER"], tables := [.table "LOG" "" "ITEM"] },
    { name := "CANCEL", imports := [.field { name := "NUMBER", type := .int4 }] }]
  messageTypes := [
    { key := ⟨"R", "ORDERS", "", "", ""⟩
      root := [{ segmentType := "HEAD" }]
      segments := [{ segmentType := "HEAD", children := [{ segmentType := "LINE" }] }, { segmentType := "LINE" }] }]

/-- The same, everything the other way round. -/
def placingReversed : Definition where
  structures := placing.structures.reverse
  functions := placing.functions.reverse
  messageTypes := placing.messageTypes.map fun m => { m with segments := m.segments.reverse }

theorem placing_reordered : placing.Reordered placingReversed :=
  ⟨(List.reverse_perm _).symm, (List.reverse_perm _).symm, .cons ⟨(List.reverse_perm _).symm, rfl⟩ .nil⟩

/-- Structures are done in the same order, since the rows are reached from the order; functions are not, and yet the same
is found. -/
theorem structures_unfolded_placing : placing.Unfoldable ∧
    ∃ r r', compile placing = .ok r ∧ compile placingReversed = .ok r' ∧ r.functions ≠ r'.functions ∧
      (∀ name, r.function name = r'.function name) ∧ (∀ key, r.segment? key = r'.segment? key) ∧
      ∃ s, r.structure? "ORDER" = some s ∧ Unfolds placing.structures "ORDER" s := by
  have hr : compile placing = .ok ((compile placing).toOption.get rfl) := rfl
  have hr' : compile placingReversed = .ok ((compile placingReversed).toOption.get rfl) := rfl
  obtain ⟨-, hcompiles, -, hfound, horder⟩ := structures_unfolded placing
  obtain ⟨hstructure, hshapes, -, -⟩ := hfound _ hr
  obtain ⟨-, hsame⟩ := horder _ placing_reordered
  obtain ⟨-, hfunctions, -, -, hsegments⟩ := hsame _ _ hr hr'
  obtain ⟨members, hshape, -⟩ := hshapes _ List.mem_cons_self
  refine ⟨(hcompiles.mp ⟨_, hr⟩).1, _, _, hr, hr', ?_, hfunctions, hsegments, _, hshape, (hstructure _ _).mp hshape⟩
  decide +kernel

end Registry

end DocWire
