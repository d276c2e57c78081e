/-
  DocWire.Proofs.Schema.Shape — shapes all the way down, and the shapes that functions come to.

  `Every` says of a shape and of every shape below it what is said of members; `Distinct` is that no two
  members have one name. Shapes are compiled from others that are done: members are as they are declared, but that their
  references are shapes that are done (`Member.Corresponds`), and what is done stays done (`Resolves`). So what is kept
  whenever such a shape is added (`Accumulates`) is kept by every compilation (`compileShape_resolved`), and every
  compilation comes to an end (`compilesShapes_iff`): the equation by which references are followed has one solution.
  Once all structures are done nothing is added any more, and the parameters of functions refer to what is done
  (`compileShape_complete`).
-/

import DocWire.Proofs.Lookup
import DocWire.Proofs.Outcome
import DocWire.Proofs.Pairing
import DocWire.Proofs.Schema.References

namespace DocWire

namespace Member

variable {σ τ : Type} {R S : σ → τ → Prop} {m : Member σ} {m' : Member τ}

/-- Two members are the same but for their references, which are related. -/
inductive Corresponds (R : σ → τ → Prop) : Member σ → Member τ → Prop
  | field (decl : FieldDecl) : Corresponds R (.field decl) (.field decl)
  | nested {name description : String} {ref : σ} {shape : τ} (h : R ref shape) :
      Corresponds R (.nested name description ref) (.nested name description shape)
  | table {name description : String} {ref : σ} {row : τ} (h : R ref row) :
      Corresponds R (.table name description ref) (.table name description row)

theorem Corresponds.name (h : Corresponds R m m') : m.name = m'.name := by
  cases h with
  | field | nested | table => rfl

theorem Corresponds.left (h : Corresponds R m m') {ref : σ} (href : m.reference? = some ref) :
    ∃ t, m'.reference? = some t ∧ R ref t := by
  cases h with
  | field => cases href
  | nested h | table h =>
    cases href
    exact ⟨_, rfl, h⟩

theorem Corresponds.right (h : Corresponds R m m') {t : τ} (ht : m'.reference? = some t) :
    ∃ ref, m.reference? = some ref ∧ R ref t := by
  cases h with
  | field => cases ht
  | nested h | table h =>
    cases ht
    exact ⟨_, rfl, h⟩

theorem Corresponds.imp (h : Corresponds R m m') (hs : ∀ ref t, m'.reference? = some t → R ref t → S ref t) :
    Corresponds S m m' := by
  cases h with
  | field decl => exact .field decl
  | nested h => exact .nested (hs _ _ rfl h)
  | table h => exact .table (hs _ _ rfl h)

end Member

namespace Shape

mutual

/-- What is said of members holds of those of a shape and of every shape below. -/
def Every (P : List (Member Shape) → Prop) : Shape → Prop
  | .mk _ _ members => P members ∧ EveryBelow P members

def EveryBelow (P : List (Member Shape) → Prop) : List (Member Shape) → Prop
  | [] => True
  | m :: rest => EveryMember P m ∧ EveryBelow P rest

def EveryMember (P : List (Member Shape) → Prop) : Member Shape → Prop
  | .field _ => True
  | .nested _ _ shape => Every P shape
  | .table _ _ row => Every P row

end

variable {P : List (Member Shape) → Prop} {s t : Shape} {m : Member Shape} {ms : List (Member Shape)}

mutual

def decideEvery [DecidablePred P] : (s : Shape) → Decidable (s.Every P)
  | .mk _ _ members =>
    have := decideBelow members
    inferInstanceAs (Decidable (P members ∧ EveryBelow P members))

def decideBelow [DecidablePred P] : (ms : List (Member Shape)) → Decidable (EveryBelow P ms)
  | [] => .isTrue trivial
  | m :: rest =>
    have := decideMember m
    have := decideBelow rest
    inferInstanceAs (Decidable (EveryMember P m ∧ EveryBelow P rest))

def decideMember [DecidablePred P] : (m : Member Shape) → Decidable (EveryMember P m)
  | .field _ => .isTrue trivial
  | .nested _ _ shape => decideEvery shape
  | .table _ _ row => decideEvery row

end

instance [DecidablePred P] : Decidable (s.Every P) := decideEvery s

theorem everyMember_iff : EveryMember P m ↔ ∀ t, m.reference? = some t → t.Every P := by
  cases m with
  | field decl => simp [EveryMember, Member.reference?]
  | nested name description shape => simp [EveryMember, Member.reference?]
  | table name description row => simp [EveryMember, Member.reference?]

theorem everyBelow_iff : EveryBelow P ms ↔ ∀ m ∈ ms, ∀ t, m.reference? = some t → t.Every P := by
  induction ms with
  | nil => simp [EveryBelow]
  | cons m rest ih => simp only [EveryBelow, everyMember_iff, ih, List.forall_mem_cons]

theorem every_iff : s.Every P ↔ P s.members ∧ ∀ m ∈ s.members, ∀ t, m.reference? = some t → t.Every P := by
  cases s with
  | mk name description members => rw [Every, everyBelow_iff, Shape.members]

theorem Every.members (h : s.Every P) : P s.members := (every_iff.mp h).1

theorem Every.below (h : s.Every P) (hm : m ∈ s.members) (ht : m.reference? = some t) : t.Every P :=
  (every_iff.mp h).2 m hm t ht

/-- No two members of the shape, or of a shape below, have one name. -/
def Distinct : Shape → Prop := Every fun ms => (ms.map Member.name).Nodup

/-- A declared member is found under its own name. -/
theorem memberIndex?_declared (h : s.Distinct) {own : Option String} {i : Nat} (hm : s.members[i]? = some m) :
    s.memberIndex? own m.name = some i :=
  Lookup.declaredIndex?_declared h.members (by rw [List.getElem?_map, hm]; rfl)

end Shape

namespace Compile

/-! ## Following references -/

/-- A function that compiles references by the steps of the compiler, each reference below by itself, however deep they
go. -/
def CompilesShapes (defs : List StructureDef)
    (compile : List String → String → String → Shapes → Except RegistryError (Shape × Shapes)) : Prop :=
  ∀ chain referencedBy name done, compile chain referencedBy name done =
    shapeStep defs chain referencedBy name done fun d _ _ =>
      compileMembers (compile (chain ++ [name]) name) name [] d.members done

section

variable {defs : List StructureDef}

/-- References are followed to an end: nothing else than the compiler follows them by its steps. -/
theorem compilesShapes_iff
    {compile : List String → String → String → Shapes → Except RegistryError (Shape × Shapes)} :
    CompilesShapes defs compile ↔ compile = compileShape defs := by
  rw [compileShape, ← follow_unique]
  simp only [CompilesShapes, funext_iff]

theorem compileShape_eq (chain : List String) (referencedBy name : String) (done : Shapes) :
    compileShape defs chain referencedBy name done =
      shapeStep defs chain referencedBy name done fun d _ _ =>
        compileMembers (compileShape defs (chain ++ [name]) name) name [] d.members done :=
  compilesShapes_iff.mpr rfl chain referencedBy name done

end

/-! ## What is done -/

/-- Members refer to shapes of a list. -/
def RefersTo (done : Shapes) (ms : List (Member Shape)) : Prop := ∀ m ∈ ms, ∀ t, m.reference? = some t → t ∈ done

/-- A reference is to a shape of a list. -/
def StandsFor (done : Shapes) (ref : String) (s : Shape) : Prop := s ∈ done ∧ s.name = ref

/-- Members as they are declared, their references being shapes of a list. -/
def Made (done : Shapes) : List (Member String) → List (Member Shape) → Prop :=
  List.Forall₂ (Member.Corresponds (StandsFor done))

section Made

variable {done done' : Shapes} {members : List (Member String)} {ms : List (Member Shape)}

theorem Made.mono (h : Made done members ms) (hk : done ⊆ done') : Made done' members ms :=
  h.imp fun _ _ hm => hm.imp fun _ _ _ hs => ⟨hk hs.1, hs.2⟩

theorem Made.refersTo (h : Made done members ms) : RefersTo done ms := by
  intro m' hm' t ht
  obtain ⟨m, -, hm⟩ := Pairing.right h hm'
  obtain ⟨ref, -, hs⟩ := hm.right ht
  exact hs.1

theorem Made.names (h : Made done members ms) : members.map Member.name = ms.map Member.name :=
  Pairing.names h fun _ _ hm => hm.name

theorem RefersTo.mono (h : RefersTo done ms) (hk : done ⊆ done') : RefersTo done' ms :=
  fun m hm t ht => hk (h m hm t ht)

end Made

/-- A way to compile references keeps `I` of what is done, drops nothing of it, and gives a shape of the name that is
done then. -/
def Resolves (I : Shapes → Prop) (compile : String → Shapes → Except RegistryError (Shape × Shapes)) : Prop :=
  ∀ name done s done', I done → compile name done = .ok (s, done') → I done' ∧ done ⊆ done' ∧ StandsFor done' name s

/-- `I` is kept where a structure is added whose members are told apart and refer to what is done. -/
def Accumulates (defs : List StructureDef) (I : Shapes → Prop) : Prop :=
  ∀ done d members, I done → d ∈ defs → (d.members.map Member.name).Nodup → Made done d.members members →
    I (done ++ [.mk d.name d.description members])

/-- What is known of the shapes that are done. -/
structure Done (defs : List StructureDef) (done : Shapes) : Prop where
  distinct : ∀ s ∈ done, s.Distinct
  named : ∀ s ∈ done, ∃ d ∈ defs, d.name = s.name
  closed : ∀ s ∈ done, RefersTo done s.members

variable {defs : List StructureDef} {I : Shapes → Prop}

theorem done_nil : Done defs [] :=
  ⟨fun _ h => (List.not_mem_nil h).elim, fun _ h => (List.not_mem_nil h).elim, fun _ h => (List.not_mem_nil h).elim⟩

theorem done_accumulates : Accumulates defs (Done defs) := by
  intro done d members h hdef hnd hmade
  have kept : done ⊆ done ++ [.mk d.name d.description members] := List.subset_append_left _ _
  have hrefs := hmade.refersTo
  refine ⟨fun t ht => ?_, fun t ht => ?_, fun t ht => ?_⟩ <;>
    rcases List.mem_append.mp ht with ht | ht
  · exact h.distinct t ht
  · rw [List.mem_singleton.mp ht]
    exact Shape.every_iff.mpr ⟨hmade.names ▸ hnd, fun m hm t ht => h.distinct t (hrefs m hm t ht)⟩
  · exact h.named t ht
  · rw [List.mem_singleton.mp ht]
    exact ⟨d, hdef, rfl⟩
  · exact (h.closed t ht).mono kept
  · rw [List.mem_singleton.mp ht]
    exact hrefs.mono kept

theorem compileMembers_resolved {compile : String → Shapes → Except RegistryError (Shape × Shapes)}
    (hc : Resolves I compile) {owner : String} : ∀ (members : List (Member String)) {seen : List String}
      {done done' : Shapes} {ms : List (Member Shape)}, I done →
      compileMembers compile owner seen members done = .ok (ms, done') →
      I done' ∧ done ⊆ done' ∧ Made done' members ms ∧ (members.map Member.name).Nodup ∧ ∀ m ∈ members, m.name ∉ seen
  | [], seen, done, done', ms, hd, h => by
    cases h
    exact ⟨hd, List.Subset.refl _, .nil, List.nodup_nil, fun m hm => (by cases hm)⟩
  | m :: rest, seen, done, done', ms, hd, h => by
    unfold compileMembers at h
    split at h
    · cases h
    rename_i hseen
    simp only at h
    split at h
    · cases h
    rename_i m' done₁ hm
    obtain ⟨⟨ms', done₂⟩, hrest, he⟩ := Outcome.map_eq_ok.mp h
    cases he
    have hmember : I done₁ ∧ done ⊆ done₁ ∧ Member.Corresponds (StandsFor done₁) m m' := by
      cases m with
      | field decl =>
        cases hm
        exact ⟨hd, List.Subset.refl _, .field decl⟩
      | nested name description ref =>
        obtain ⟨⟨s, done₃⟩, hs, he⟩ := Outcome.map_eq_ok.mp hm
        cases he
        obtain ⟨hdone, hkept, hstands⟩ := hc _ _ _ _ hd hs
        exact ⟨hdone, hkept, .nested hstands⟩
      | table name description ref =>
        obtain ⟨⟨s, done₃⟩, hs, he⟩ := Outcome.map_eq_ok.mp hm
        cases he
        obtain ⟨hdone, hkept, hstands⟩ := hc _ _ _ _ hd hs
        exact ⟨hdone, hkept, .table hstands⟩
    obtain ⟨hdone, hkept, hfirst⟩ := hmember
    obtain ⟨hdone', hkept', hmade, hnd, hfresh⟩ := compileMembers_resolved hc rest hdone hrest
    refine ⟨hdone', List.Subset.trans hkept hkept', .cons (hfirst.imp fun _ _ _ hs => ⟨hkept' hs.1, hs.2⟩) hmade,
      List.nodup_cons.mpr ⟨fun hx => ?_, hnd⟩, fun n hn => ?_⟩
    · obtain ⟨n, hn, he⟩ := List.mem_map.mp hx
      exact hfresh n hn (List.mem_cons.mpr (.inl he))
    · rcases List.mem_cons.mp hn with rfl | hn
      · simpa using hseen
      · exact fun hx => hfresh n hn (List.mem_cons_of_mem _ hx)

/-- A compiled shape was done before, or its members are compiled behind its name and it is done now. -/
theorem compileShape_eq_ok {chain : List String} {referencedBy name : String} {done done' : Shapes} {s : Shape}
    (h : compileShape defs chain referencedBy name done = .ok (s, done')) :
    name ∉ chain ∧
      ((s ∈ done ∧ s.name = name ∧ done' = done) ∨
        (name ∉ done.map Shape.name ∧ ∃ d ∈ defs, d.name = name ∧ ∃ members mid,
          compileMembers (compileShape defs (chain ++ [name]) name) name [] d.members done = .ok (members, mid) ∧
            s = .mk name d.description members ∧ done' = mid ++ [s])) := by
  rw [compileShape_eq, shapeStep] at h
  split at h
  · cases h
  rename_i hchain
  refine ⟨by simpa using hchain, ?_⟩
  split at h
  · rename_i hf
    cases h
    exact .inl ⟨List.mem_of_find?_eq_some hf, Lookup.name_of_find? hf, rfl⟩
  rename_i hnone
  have hnew : name ∉ done.map Shape.name := Lookup.find?_eq_none.mp hnone
  split at h
  · cases h
  rename_i d hd
  have hdn : d.name = name := Lookup.name_of_find? hd
  split at h
  · cases h
  rename_i members mid hmembers
  cases h
  exact .inr ⟨hnew, d, List.mem_of_find?_eq_some hd, hdn, members, mid, hmembers, rfl, rfl⟩

/-- The induction is along the chain: the members of a structure are compiled with its name on it. -/
theorem compileShape_resolved (hpush : Accumulates defs I) :
    ∀ (chain : List String) (referencedBy : String), Resolves I (compileShape defs chain referencedBy) := by
  refine chain_induction (defs.map (·.name)) fun chain ih => ?_
  intro referencedBy name done s done' hd h
  obtain ⟨hchain, ⟨hs, hname, rfl⟩ | ⟨-, d, hdef, rfl, members, mid, hmembers, rfl, rfl⟩⟩ := compileShape_eq_ok h
  · exact ⟨hd, List.Subset.refl _, hs, hname⟩
  have hbelow := ih d.name (List.mem_map_of_mem hdef) hchain d.name
  obtain ⟨hmid, hkept, hmade, hnd, -⟩ := compileMembers_resolved hbelow d.members hd hmembers
  exact ⟨hpush _ _ _ hmid hdef hnd hmade, List.subset_append_of_subset_left _ hkept,
    List.mem_append_right _ (List.mem_singleton.mpr rfl), rfl⟩

theorem compileStructures_resolved (hpush : Accumulates defs I) : ∀ (ds : List StructureDef) {done done' : Shapes},
    I done → compileStructures defs ds done = .ok done' →
    I done' ∧ done ⊆ done' ∧ ∀ d ∈ ds, d.name ∈ done'.map Shape.name
  | [], done, done', hd, h => by
    cases h
    exact ⟨hd, List.Subset.refl _, fun d hd => (by cases hd)⟩
  | d :: rest, done, done', hd, h => by
    unfold compileStructures at h
    split at h
    · cases h
    rename_i s done₁ hs
    obtain ⟨hdone, hkept, hmem, hname⟩ := compileShape_resolved hpush _ _ _ _ _ _ hd hs
    obtain ⟨hdone', hkept', hall⟩ := compileStructures_resolved hpush rest hdone h
    refine ⟨hdone', List.Subset.trans hkept hkept', fun d' hd' => ?_⟩
    rcases List.mem_cons.mp hd' with rfl | hd'
    · exact List.mem_map.mpr ⟨s, hkept' hmem, hname⟩
    · exact hall d' hd'

/-- Once every definition is done, a reference gives what is done and adds nothing. -/
theorem compileShape_complete {done : Shapes} (hall : ∀ d ∈ defs, d.name ∈ done.map Shape.name)
    (chain : List String) (referencedBy : String) : Resolves (· = done) (compileShape defs chain referencedBy) := by
  rintro name mid s done' rfl h
  obtain ⟨-, ⟨hs, hname, rfl⟩ | ⟨hnew, d, hd, rfl, -⟩⟩ := compileShape_eq_ok h
  · exact ⟨rfl, List.Subset.refl _, hs, hname⟩
  · exact absurd (hall d hd) hnew

end Compile

/-- A function as it is compiled: the names of its two lists are fixed, and their members are told apart. -/
structure Function.Resolved (f : Function) : Prop where
  requestName : f.request.name = Function.requestName
  responseName : f.response.name = Function.responseName
  request : f.request.Distinct
  response : f.response.Distinct

namespace Compile

variable {defs : List StructureDef} {done : Shapes}

/-- The shape of a parameter list, its members referring to what is done. -/
structure Listed (done : Shapes) (d : FunctionDef) (shapeName : String) (members : List (Member String)) (s : Shape) :
    Prop where
  name : s.name = shapeName
  description : s.description = d.description
  made : Made done members s.members
  distinct : (members.map Member.name).Nodup

/-- Functions are compiled once every structure is done. -/
theorem compileParameters_ok {d : FunctionDef} {shapeName : String} {members : List (Member String)} {s : Shape}
    (hall : ∀ d ∈ defs, d.name ∈ done.map Shape.name) (h : compileParameters defs d shapeName members done = .ok s) :
    Listed done d shapeName members s := by
  obtain ⟨⟨ms, done'⟩, hms, rfl⟩ := Outcome.map_eq_ok.mp h
  obtain ⟨rfl, -, hmade, hnd, -⟩ := compileMembers_resolved (compileShape_complete hall _ _) members rfl hms
  exact ⟨rfl, rfl, hmade, hnd⟩

theorem Listed.shapeDistinct {d : FunctionDef} {shapeName : String} {members : List (Member String)} {s : Shape}
    (h : Listed done d shapeName members s) (hd : Done defs done) : s.Distinct :=
  Shape.every_iff.mpr ⟨h.made.names ▸ h.distinct, fun m hm t ht => hd.distinct t (h.made.refersTo m hm t ht)⟩

/-- A function as its definition says, the members of both lists referring to what is done. -/
structure Called (done : Shapes) (d : FunctionDef) (f : Function) : Prop where
  name : f.name = d.name
  ns : f.ns = ownNamespace d.ns d.name
  description : f.description = d.description
  request : Listed done d Function.requestName d.requestMembers f.request
  response : Listed done d Function.responseName d.responseMembers f.response

theorem compileFunction_ok {d : FunctionDef} {f : Function} (hall : ∀ d ∈ defs, d.name ∈ done.map Shape.name)
    (h : compileFunction defs done d = .ok f) : Called done d f := by
  unfold compileFunction at h
  split at h
  · cases h
  rename_i request hrequest
  obtain ⟨response, hresponse, rfl⟩ := Outcome.map_eq_ok.mp h
  exact ⟨rfl, rfl, rfl, compileParameters_ok hall hrequest, compileParameters_ok hall hresponse⟩

theorem Called.resolved {d : FunctionDef} {f : Function} (h : Called done d f) (hd : Done defs done) : f.Resolved :=
  ⟨h.request.name, h.response.name, h.request.shapeDistinct hd, h.response.shapeDistinct hd⟩

/-- Every definition is compiled by itself, and names are distinct. -/
theorem compileFunctions_ok (hall : ∀ d ∈ defs, d.name ∈ done.map Shape.name) :
    ∀ (ds : List FunctionDef) {seen : List String} {fs : List Function}, compileFunctions defs done seen ds = .ok fs →
    List.Forall₂ (Called done) ds fs ∧ (ds.map (·.name)).Nodup ∧ ∀ d ∈ ds, d.name ∉ seen
  | [], seen, fs, h => by
    cases h
    exact ⟨.nil, List.nodup_nil, fun d hd => (by cases hd)⟩
  | d :: rest, seen, fs, h => by
    unfold compileFunctions at h
    split at h
    · cases h
    rename_i f hf
    split at h
    · cases h
    rename_i hseen
    obtain ⟨fs', hfs, rfl⟩ := Outcome.map_eq_ok.mp h
    obtain ⟨hothers, hnd, hfresh⟩ := compileFunctions_ok hall rest hfs
    refine ⟨.cons (compileFunction_ok hall hf) hothers, List.nodup_cons.mpr ⟨fun hx => ?_, hnd⟩, fun g hg => ?_⟩
    · obtain ⟨g, hg, he⟩ := List.mem_map.mp hx
      exact hfresh g hg (List.mem_cons.mpr (.inl he))
    · rcases List.mem_cons.mp hg with rfl | hg
      · simpa using hseen
      · exact fun hx => hfresh g hg (List.mem_cons_of_mem _ hx)

end Compile

end DocWire
