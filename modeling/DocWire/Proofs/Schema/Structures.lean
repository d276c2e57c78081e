/-
  DocWire.Proofs.Schema.Structures — structures and functions compile exactly where they can be unfolded.

  Structures are compiled depth first, with a table of what is done and the chain of names on the way. Every shape in the
  table is the unfolding of its name (`unfolds_accumulates`), whichever structure was begun with, so the table is nothing
  but a memory: what a registry has under a name is what the name unfolds to (`Registry.structure?_eq_some`,
  `Registry.function_eq_ok`).

  `Definition.Unfoldable` says what is asked for, of the definition alone. A definition that compiles is unfoldable, since
  what has a shape refers to what has one and not to itself. Conversely, nothing is refused where a definition is
  unfoldable: names on the chain refer to the next one, so it is not among them (`compileShape_accepts`).
-/

import DocWire.Proofs.Schema.Registry
import DocWire.Proofs.Schema.Unfolding

namespace DocWire

namespace Definition

/-- The member lists of a definition: those of its structures, and the two of each function. -/
def memberLists (d : Definition) : List (List (Member String)) :=
  d.structures.map (·.members) ++ d.functions.flatMap fun f => [f.requestMembers, f.responseMembers]

/-- Structures and functions that can be told apart and replaced by what they refer to, all the way down. -/
structure Unfoldable (d : Definition) : Prop where
  structures : (d.structures.map (·.name)).Nodup
  functions : (d.functions.map (·.name)).Nodup
  members : ∀ members ∈ d.memberLists, (members.map Member.name).Nodup
  defined : ∀ members ∈ d.memberLists, ∀ m ∈ members, ∀ ref, m.reference? = some ref → ref ∈ d.structures.map (·.name)
  acyclic : ∀ name, ¬ Relation.TransGen (Compile.Refers d.structures) name name

variable {d : Definition}

theorem mem_memberLists {members : List (Member String)} : members ∈ d.memberLists ↔
    (∃ s ∈ d.structures, members = s.members) ∨
      ∃ f ∈ d.functions, members = f.requestMembers ∨ members = f.responseMembers := by
  simp only [memberLists, List.mem_append, List.mem_map, List.mem_flatMap, List.mem_cons, List.not_mem_nil, or_false,
    eq_comm (b := members)]

theorem structure_memberLists {s : StructureDef} (hs : s ∈ d.structures) : s.members ∈ d.memberLists :=
  mem_memberLists.mpr (.inl ⟨s, hs, rfl⟩)

theorem request_memberLists {f : FunctionDef} (hf : f ∈ d.functions) : f.requestMembers ∈ d.memberLists :=
  mem_memberLists.mpr (.inr ⟨f, hf, .inl rfl⟩)

theorem response_memberLists {f : FunctionDef} (hf : f ∈ d.functions) : f.responseMembers ∈ d.memberLists :=
  mem_memberLists.mpr (.inr ⟨f, hf, .inr rfl⟩)

end Definition

namespace Compile

/-! ## What is compiled -/

section

variable {defs : List StructureDef} {done : Shapes} {members : List (Member String)} {ms : List (Member Shape)}

/-- Every shape that is done is what its name unfolds to. -/
def AllUnfold (defs : List StructureDef) (done : Shapes) : Prop := ∀ s ∈ done, Unfolds defs s.name s

theorem Made.unfolds (h : Made done members ms) (hdone : AllUnfold defs done) : UnfoldsAll defs members ms := by
  refine unfoldsAll_iff.mpr (h.imp ?_)
  intro m m' hm
  refine hm.imp ?_
  rintro ref t - ⟨ht, rfl⟩
  exact hdone t ht

theorem unfolds_accumulates : Accumulates defs (AllUnfold defs) := by
  intro done d members h hd _ hmade s hs
  rcases List.mem_append.mp hs with hs | hs
  · exact h s hs
  · rw [List.mem_singleton.mp hs]
    exact unfolds_iff.mpr ⟨rfl, d, hd, rfl, rfl, unfoldsAll_iff.mp (hmade.unfolds h)⟩

/-- A function with both lists unfolded. -/
def UnfoldsFunction (defs : List StructureDef) (d : FunctionDef) (f : Function) : Prop :=
  ∃ request response, UnfoldsAll defs d.requestMembers request ∧ UnfoldsAll defs d.responseMembers response ∧
    f = ⟨d.name, ownNamespace d.ns d.name, d.description, .mk Function.requestName d.description request,
      .mk Function.responseName d.description response⟩

theorem Listed.eq_mk {d : FunctionDef} {shapeName : String} {s : Shape} (h : Listed done d shapeName members s) :
    s = .mk shapeName d.description s.members := by
  obtain ⟨hname, hdescription, -, -⟩ := h
  cases s with
  | mk _ _ _ =>
    cases hname
    cases hdescription
    rfl

theorem Called.unfolds {d : FunctionDef} {f : Function} (h : Called done d f) (hdone : AllUnfold defs done) :
    UnfoldsFunction defs d f := by
  refine ⟨f.request.members, f.response.members, h.request.made.unfolds hdone, h.response.made.unfolds hdone, ?_⟩
  rw [← h.request.eq_mk, ← h.response.eq_mk, ← h.name, ← h.description]
  have hns := h.ns
  rw [← h.name] at hns
  rw [← hns]

theorem unfoldsFunction_unique (hn : (defs.map (·.name)).Nodup) {d : FunctionDef} {f f' : Function}
    (h : UnfoldsFunction defs d f) (h' : UnfoldsFunction defs d f') : f = f' := by
  obtain ⟨request, response, hrequest, hresponse, rfl⟩ := h
  obtain ⟨request', response', hrequest', hresponse', rfl⟩ := h'
  rw [unfoldsAll_unique hn hrequest hrequest', unfoldsAll_unique hn hresponse hresponse']

theorem defined_of_unfoldsAll (h : UnfoldsAll defs members ms) {m : Member String} (hm : m ∈ members) {ref : String}
    (href : m.reference? = some ref) : ref ∈ defs.map (·.name) := by
  obtain ⟨m', -, hcorresponds⟩ := Pairing.left (unfoldsAll_iff.mp h) hm
  obtain ⟨t, -, ht⟩ := hcorresponds.left href
  exact ht.name_mem

end

/-! ## What is accepted -/

theorem compileMembers_accepts {compile : String → Shapes → Except RegistryError (Shape × Shapes)} (owner : String) :
    ∀ (members : List (Member String)) (seen : List String) (done : Shapes),
      (∀ m ∈ members, ∀ ref, m.reference? = some ref → ∀ done, ∃ r, compile ref done = .ok r) →
      (members.map Member.name).Nodup → (∀ m ∈ members, m.name ∉ seen) →
      ∃ r, compileMembers compile owner seen members done = .ok r := by
  intro members
  induction members with
  | nil =>
    intro seen done _ _ _
    exact ⟨_, rfl⟩
  | cons m rest ih =>
    intro seen done hrefs hnd hseen
    rw [List.forall_mem_cons] at hrefs
    rw [List.map_cons, List.nodup_cons] at hnd
    have hnew : ¬ m.name ∈ seen := hseen m List.mem_cons_self
    have hrest (done : Shapes) : ∃ r, compileMembers compile owner (m.name :: seen) rest done = .ok r :=
      ih _ done hrefs.2 hnd.2 (Lookup.fresh_cons hnd.1 hseen)
    unfold compileMembers
    simp only [List.contains_iff_mem, hnew, if_false]
    cases m with
    | field decl =>
      obtain ⟨r, hr⟩ := hrest done
      simp only [hr, Outcome.map_ok]
      exact ⟨_, rfl⟩
    | nested name description ref | table name description ref =>
      obtain ⟨⟨s, mid⟩, hs⟩ := hrefs.1 ref rfl done
      obtain ⟨r, hr⟩ := hrest mid
      simp only [hs, Outcome.map_ok, hr]
      exact ⟨_, rfl⟩

theorem Refers.mem {defs : List StructureDef} {a b : String} (h : Refers defs a b) : a ∈ defs.map (·.name) := by
  obtain ⟨d, hd, rfl, -⟩ := h
  exact List.mem_map_of_mem hd

/-- The chain consists of names that refer, step by step, to the one to be compiled. -/
def LeadsTo (defs : List StructureDef) (name : String) (chain : List String) : Prop :=
  ∀ a ∈ chain, Relation.TransGen (Refers defs) a name

section

variable {d : Definition} {name : String} {chain : List String}

theorem LeadsTo.push (h : LeadsTo d.structures name chain) {next : String} (hrefers : Refers d.structures name next) :
    LeadsTo d.structures next (chain ++ [name]) := by
  intro a ha
  rcases List.mem_append.mp ha with ha | ha
  · exact (h a ha).tail hrefers
  · rw [List.mem_singleton.mp ha]
    exact .single hrefers

theorem compileShape_accepts (hd : d.Unfoldable) : ∀ (chain : List String) (referencedBy name : String) (done : Shapes),
    LeadsTo d.structures name chain → name ∈ d.structures.map (·.name) →
    ∃ r, compileShape d.structures chain referencedBy name done = .ok r := by
  refine chain_induction (d.structures.map (·.name)) fun chain ih => ?_
  intro referencedBy name done hc hname
  have hnew : name ∉ chain := fun hx => hd.acyclic name (hc name hx)
  rw [compileShape_eq, shapeStep]
  split
  · rename_i hmem
    exact absurd (by simpa using hmem) hnew
  cases hfound : done.find? (·.name == name) with
  | some s => exact ⟨_, rfl⟩
  | none =>
    simp only
    split
    · rename_i hmissing
      exact absurd hname (Lookup.find?_eq_none.mp hmissing)
    · rename_i g hfg
      have hg := List.mem_of_find?_eq_some hfg
      obtain rfl : g.name = name := Lookup.name_of_find? hfg
      have hlist := Definition.structure_memberLists hg
      have hbelow : ∀ m ∈ g.members, ∀ ref, m.reference? = some ref → ∀ done,
          ∃ r, compileShape d.structures (chain ++ [g.name]) g.name ref done = .ok r := by
        intro m hm ref href done
        exact ih _ hname hnew _ _ done (hc.push ⟨g, hg, rfl, m, hm, href⟩) (hd.defined _ hlist m hm ref href)
      obtain ⟨r, hr⟩ := compileMembers_accepts g.name g.members [] done hbelow (hd.members _ hlist)
        (fun _ _ => List.not_mem_nil)
      rw [hr]
      exact ⟨_, rfl⟩

/-- No name leads to a reference that no other is behind. -/
theorem compileShape_top_accepts (hd : d.Unfoldable) (referencedBy : String) (done : Shapes)
    (hname : name ∈ d.structures.map (·.name)) :
    ∃ r, compileShape d.structures [] referencedBy name done = .ok r :=
  compileShape_accepts hd [] referencedBy name done (fun a ha => by cases ha) hname

theorem compileStructures_accepts (hd : d.Unfoldable) : ∀ (ds : List StructureDef) (done : Shapes), ds ⊆ d.structures →
    ∃ shapes, compileStructures d.structures ds done = .ok shapes := by
  intro ds
  induction ds with
  | nil =>
    intro done _
    exact ⟨done, rfl⟩
  | cons g rest ih =>
    intro done hsub
    rw [List.cons_subset] at hsub
    obtain ⟨⟨s, mid⟩, hs⟩ := compileShape_top_accepts hd g.name done (List.mem_map_of_mem hsub.1)
    obtain ⟨shapes, hrest⟩ := ih mid hsub.2
    exact ⟨shapes, by rw [compileStructures, hs]; exact hrest⟩

theorem compileParameters_accepts (hd : d.Unfoldable) (f : FunctionDef) (shapeName : String)
    {members : List (Member String)} (hm : members ∈ d.memberLists) (done : Shapes) :
    ∃ s, compileParameters d.structures f shapeName members done = .ok s := by
  have hrefs : ∀ m ∈ members, ∀ ref, m.reference? = some ref → ∀ done,
      ∃ r, compileShape d.structures [] f.name ref done = .ok r := by
    intro m hm' ref href done
    exact compileShape_top_accepts hd f.name done (hd.defined _ hm m hm' ref href)
  exact Outcome.exists_map_ok.mpr
    (compileMembers_accepts f.name members [] done hrefs (hd.members _ hm) (fun _ _ => List.not_mem_nil))

theorem compileFunctions_accepts (hd : d.Unfoldable) (done : Shapes) : ∀ (fs : List FunctionDef) (seen : List String),
    fs ⊆ d.functions → (fs.map (·.name)).Nodup → (∀ f ∈ fs, f.name ∉ seen) →
    ∃ compiled, compileFunctions d.structures done seen fs = .ok compiled := by
  intro fs
  induction fs with
  | nil =>
    intro seen _ _ _
    exact ⟨_, rfl⟩
  | cons f rest ih =>
    intro seen hsub hnd hseen
    rw [List.cons_subset] at hsub
    rw [List.map_cons, List.nodup_cons] at hnd
    obtain ⟨request, hrequest⟩ :=
      compileParameters_accepts hd f Function.requestName (Definition.request_memberLists hsub.1) done
    obtain ⟨response, hresponse⟩ :=
      compileParameters_accepts hd f Function.responseName (Definition.response_memberLists hsub.1) done
    obtain ⟨compiled, hrest⟩ := ih _ hsub.2 hnd.2 (Lookup.fresh_cons hnd.1 hseen)
    have hnew : ¬ f.name ∈ seen := hseen f List.mem_cons_self
    simp only [compileFunctions, compileFunction, hrequest, hresponse, Outcome.map_ok, List.contains_iff_mem, hnew,
      if_false, hrest]
    exact ⟨_, rfl⟩

end

end Compile

namespace Registry

open Compile

variable {d : Definition} {r : Registry}

/-! ## What a registry has -/

theorem compile_unfolds (h : compile d = .ok r) :
    AllUnfold d.structures r.structures ∧ ∀ g ∈ d.structures, g.name ∈ r.structures.map Shape.name := by
  obtain ⟨hshapes, -, -⟩ := compile_eq_ok h
  obtain ⟨hunfold, -, hall⟩ := compileStructures_resolved unfolds_accumulates _ (fun s hs => by cases hs) hshapes
  exact ⟨hunfold, hall⟩

theorem structures_nodup (h : compile d = .ok r) : (d.structures.map (·.name)).Nodup := by
  unfold compile at h
  split at h
  · cases h
  · rename_i hnone
    exact (firstRepeated?_eq_none.mp hnone).1

theorem exists_unfolds (h : compile d = .ok r) {name : String} (hname : name ∈ d.structures.map (·.name)) :
    ∃ s ∈ r.structures, Unfolds d.structures name s := by
  obtain ⟨g, hg, rfl⟩ := List.mem_map.mp hname
  obtain ⟨hunfold, hall⟩ := compile_unfolds h
  obtain ⟨s, hs, hsname⟩ := List.mem_map.mp (hall g hg)
  exact ⟨s, hs, hsname ▸ hunfold s hs⟩

theorem unfoldable_of_compile (h : compile d = .ok r) : d.Unfoldable := by
  have hn := structures_nodup h
  obtain ⟨hdone, hcalled, hfunctions⟩ := compile_called h
  obtain ⟨hunfold, -⟩ := compile_unfolds h
  -- every member list is told apart, and has an unfolding
  have hlists : ∀ members ∈ d.memberLists, (members.map Member.name).Nodup ∧ ∃ ms, UnfoldsAll d.structures members ms := by
    intro members hmembers
    rcases Definition.mem_memberLists.mp hmembers with ⟨g, hg, rfl⟩ | ⟨f, hf, hlist⟩
    · obtain ⟨s, hs, hunfolds⟩ := exists_unfolds h (List.mem_map_of_mem hg)
      obtain ⟨-, hcorresponds⟩ := hunfolds.eq_mk hn hg
      refine ⟨?_, s.members, unfoldsAll_iff.mpr hcorresponds⟩
      rw [Pairing.names hcorresponds fun _ _ hm => hm.name]
      exact (hdone.distinct s hs).members
    · obtain ⟨f', -, hf'⟩ := Pairing.left hcalled hf
      rcases hlist with rfl | rfl
      · exact ⟨hf'.request.distinct, _, hf'.request.made.unfolds hunfold⟩
      · exact ⟨hf'.response.distinct, _, hf'.response.made.unfolds hunfold⟩
  refine ⟨hn, hfunctions, ?_, ?_, ?_⟩
  · intro members hmembers
    exact (hlists members hmembers).1
  · intro members hmembers m hm ref href
    obtain ⟨-, ms, hms⟩ := hlists members hmembers
    exact defined_of_unfoldsAll hms hm href
  · intro name hcycle
    obtain ⟨next, hrefers, -⟩ := Relation.TransGen.head'_iff.mp hcycle
    obtain ⟨s, -, hs⟩ := exists_unfolds h hrefers.mem
    exact hs.acyclic hn hcycle

/-- Structures and functions are refused for nothing else than that they cannot be unfolded. -/
theorem exists_compile_iff :
    (∃ r, compile d = .ok r) ↔ d.Unfoldable ∧ ∃ ms, compileMessageTypes [] d.messageTypes = .ok ms := by
  constructor
  · rintro ⟨r, hr⟩
    exact ⟨unfoldable_of_compile hr, r.messageTypes, (compile_eq_ok hr).2.2⟩
  · rintro ⟨hd, ms, hms⟩
    have hnone : firstRepeated? [] (d.structures.map (·.name)) = none :=
      firstRepeated?_eq_none.mpr ⟨hd.structures, fun _ _ => List.not_mem_nil⟩
    obtain ⟨shapes, hshapes⟩ := compileStructures_accepts hd d.structures [] (List.Subset.refl _)
    obtain ⟨functions, hfunctions⟩ := compileFunctions_accepts hd shapes d.functions [] (List.Subset.refl _) hd.functions
      (fun _ _ => List.not_mem_nil)
    simp only [compile, hnone, hshapes, hfunctions, hms, Outcome.map_ok]
    exact ⟨_, rfl⟩

/-- What is found under a name is what the name unfolds to. -/
theorem structure?_eq_some (h : compile d = .ok r) {name : String} {s : Shape} :
    r.structure? name = some s ↔ Unfolds d.structures name s := by
  obtain ⟨hunfold, -⟩ := compile_unfolds h
  have found {t : Shape} (ht : r.structure? name = some t) : Unfolds d.structures name t := by
    rw [← Lookup.name_of_find? ht]
    exact hunfold t (List.mem_of_find?_eq_some ht)
  constructor
  · exact found
  · intro hs
    obtain ⟨t, ht, htname⟩ := exists_unfolds h hs.name_mem
    cases hfound : r.structure? name with
    | none =>
      have hmissing : name ∉ r.structures.map Shape.name := Lookup.find?_eq_none.mp hfound
      rw [← (unfolds_iff.mp htname).1] at hmissing
      exact absurd (List.mem_map_of_mem ht) hmissing
    | some u => rw [unfolds_unique (structures_nodup h) (found hfound) hs]

theorem function_eq_ok (h : compile d = .ok r) {name : String} {f : Function} :
    r.function name = .ok f ↔ ∃ g ∈ d.functions, g.name = name ∧ UnfoldsFunction d.structures g f := by
  obtain ⟨-, hcalled, hfunctions⟩ := compile_called h
  obtain ⟨hunfold, -⟩ := compile_unfolds h
  constructor
  · intro hf
    obtain ⟨g, hg, hcalls⟩ := Pairing.right hcalled (function_mem hf)
    refine ⟨g, hg, ?_, hcalls.unfolds hunfold⟩
    rw [← hcalls.name]
    exact function_named hf
  · rintro ⟨g, hg, rfl, hf⟩
    obtain ⟨f', hf', hcalls⟩ := Pairing.left hcalled hg
    rw [unfoldsFunction_unique (structures_nodup h) hf (hcalls.unfolds hunfold), ← hcalls.name]
    exact function_name h hf'

end Registry

end DocWire
