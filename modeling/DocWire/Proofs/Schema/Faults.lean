/-
  DocWire.Proofs.Schema.Faults — what the error of a refused definition says is so.

  A definition is refused with the first fault that is found, and the fault is told by names. `RegistryError.Truthful`
  says, error by error, what the names have to stand for in the definition: a chain of references that ends where it
  starts, a reference that its owner makes to what is not defined, two chains from the root that are of two lengths, a
  name that stands twice in its scope.

  A cycle is cut out of the chain of names that are being compiled. So the invariant is that every name of the chain
  refers to the one behind it, and the last to the one to be compiled (`List.IsChain`); it holds wherever a reference is
  followed, and nothing is left on the chain behind it. Levels are as truthful as what is done: every type that is done
  stands beside the length of a chain that leads to it (`Closed`).

  - `faults_truthful`: no definition is refused with an error that does not say what is so.
-/

import DocWire.Proofs.Schema.Registry
import DocWire.Proofs.Schema.Structures
import Mathlib.Data.List.Chain
import Mathlib.Data.List.Duplicate

namespace DocWire

/-! ## What an error says -/

/-- Names each of which is related to the next, the last being the first again. -/
def Closes (R : String → String → Prop) (chain : List String) : Prop :=
  chain.IsChain R ∧ ∃ name between, chain = name :: (between ++ [name])

namespace MessageDef

/-- The child types that are listed under a segment type, or under the root. -/
def Lists (d : MessageDef) (parent : String) (children : List ChildDef) : Prop :=
  (parent = rootType ∧ children = d.root) ∨ ∃ s ∈ d.segments, s.segmentType = parent ∧ children = s.children

/-- A child type is listed under a segment type, or under the root. -/
def References (d : MessageDef) (parent child : String) : Prop :=
  ∃ children, d.Lists parent children ∧ ∃ c ∈ children, c.segmentType = child

end MessageDef

namespace Definition

/-- A member list of a structure, or one of the two of a function. -/
def Owns (d : Definition) (owner : String) (members : List (Member String)) : Prop :=
  (∃ g ∈ d.structures, g.name = owner ∧ members = g.members) ∨
    ∃ f ∈ d.functions, f.name = owner ∧ (members = f.requestMembers ∨ members = f.responseMembers)

/-- A name stands twice in its scope; a segment type may also have the name of the root. -/
def Repeats (d : Definition) : Repeated → Prop
  | .shape name => (d.structures.map (·.name)).Duplicate name
  | .function name => (d.functions.map (·.name)).Duplicate name
  | .messageType id => ∃ key : TypeKey, key.id = id ∧ (d.messageTypes.map (·.key)).Duplicate key
  | .segment name => ∃ m ∈ d.messageTypes, m.listed.Duplicate name ∨ (name = rootType ∧ name ∈ m.listed)
  | .member owner name => ∃ members, d.Owns owner members ∧ (members.map Member.name).Duplicate name
  | .child parent name =>
    ∃ m ∈ d.messageTypes, ∃ children, m.Lists parent children ∧ (children.map (·.segmentType)).Duplicate name
  | .field segment name =>
    ∃ m ∈ d.messageTypes, ∃ s ∈ m.segments, s.segmentType = segment ∧ (s.fields.map (·.name)).Duplicate name

end Definition

/-- What an error says of a definition is so. Errors of look-ups and of texts say nothing of a definition. -/
def RegistryError.Truthful (d : Definition) : RegistryError → Prop
  | .cycle .structures chain => Closes (Compile.Refers d.structures) chain
  | .cycle .segments chain => ∃ m ∈ d.messageTypes, Closes m.References chain
  | .unknownStructure name referencedBy =>
    (∃ members, d.Owns referencedBy members ∧ ∃ m ∈ members, m.reference? = some name) ∧
      name ∉ d.structures.map (·.name)
  | .unknownSegment id name parent => ∃ m ∈ d.messageTypes, m.key.id = id ∧ m.References parent name ∧ name ∉ m.listed
  | .inconsistentLevel id name first second =>
    first ≠ second ∧ ∃ m ∈ d.messageTypes, m.key.id = id ∧ m.Reaches first name ∧ m.Reaches second name
  | .duplicate what => d.Repeats what
  | _ => False

namespace Compile

/-! ## Names that come again -/

section

variable {α : Type} {a x : α} {seen rest : List α}

theorem duplicate_of_seen (h : a ∈ seen) : (seen ++ a :: rest).Duplicate a := by
  classical
  have hseen := List.count_pos_iff.mpr h
  rw [List.duplicate_iff_two_le_count, List.count_append, List.count_cons_self]
  omega

/-- It is all one whether a name was seen or is still to be seen. -/
theorem duplicate_of_cons (h : (a :: seen ++ rest).Duplicate x) : (seen ++ a :: rest).Duplicate x := by
  classical
  rw [List.duplicate_iff_two_le_count] at h ⊢
  rwa [List.perm_middle.count_eq]

end

theorem firstRepeated?_eq_some {name : String} {names : List String} : ∀ {seen : List String},
    firstRepeated? seen names = some name → (seen ++ names).Duplicate name := by
  induction names with
  | nil =>
    intro seen h
    cases h
  | cons a rest ih =>
    intro seen h
    simp only [firstRepeated?, List.contains_iff_mem] at h
    split at h
    · rename_i hseen
      cases h
      exact duplicate_of_seen hseen
    · exact duplicate_of_cons (ih h)

theorem clashingSegment?_eq_some {name : String} {defs : List SegmentDef} : ∀ {seen : List String},
    clashingSegment? seen defs = some name →
      (seen ++ defs.map (·.segmentType)).Duplicate name ∨ (name = rootType ∧ name ∈ defs.map (·.segmentType)) := by
  induction defs with
  | nil =>
    intro seen h
    cases h
  | cons s rest ih =>
    intro seen h
    simp only [clashingSegment?, Bool.or_eq_true, beq_iff_eq, List.contains_iff_mem] at h
    split at h
    · rename_i hclash
      cases h
      rcases hclash with hroot | hseen
      · exact .inr ⟨hroot, List.mem_cons_self⟩
      · exact .inl (duplicate_of_seen hseen)
    · rcases ih h with hagain | ⟨hroot, hlisted⟩
      · exact .inl (duplicate_of_cons hagain)
      · exact .inr ⟨hroot, List.mem_cons_of_mem _ hlisted⟩

theorem compileFields_eq_error {owner : String} {fields : List FieldDecl} {e : RegistryError}
    (h : compileFields owner fields = .error e) :
    ∃ name, e = .duplicate (.field owner name) ∧ (fields.map (·.name)).Duplicate name := by
  unfold compileFields at h
  split at h
  · rename_i name hname
    cases h
    exact ⟨name, rfl, firstRepeated?_eq_some hname⟩
  · cases h

/-! ## The chain -/

section

variable {R : String → String → Prop} {chain : List String} {name next : String}

theorem isChain_push (h : (chain ++ [name]).IsChain R) (hnext : R name next) : (chain ++ [name] ++ [next]).IsChain R := by
  rw [List.append_assoc, List.singleton_append, List.isChain_split]
  exact ⟨h, List.isChain_pair.mpr hnext⟩

/-- What a name closes is the end of the chain, from where the name stands on it. -/
theorem closedChain_closes (h : (chain ++ [name]).IsChain R) (hname : name ∈ chain) : Closes R (closedChain chain name) := by
  obtain ⟨front, hfront⟩ := List.dropWhile_suffix (l := chain) (· != name)
  have hend : closedChain chain name <:+ chain ++ [name] := ⟨front, by rw [closedChain, ← List.append_assoc, hfront]⟩
  refine ⟨h.suffix hend, name, ?_⟩
  have hfound : chain.dropWhile (· != name) ≠ [] := by
    intro hnone
    have hpassed := List.dropWhile_eq_nil_iff.mp hnone name hname
    simp at hpassed
  have hfirst := List.head_dropWhile_not (· != name) hfound
  cases hdrop : chain.dropWhile (· != name) with
  | nil => exact absurd hdrop hfound
  | cons first between =>
    simp only [hdrop, List.head_cons, bne_eq_false_iff_eq] at hfirst
    exact ⟨between, by rw [closedChain, hdrop, hfirst, List.cons_append]⟩

end

/-! ## Structures and functions -/

/-- Members are refused for a name that comes again, or where a reference is. -/
theorem compileMembers_eq_error {compile : String → Shapes → Except RegistryError (Shape × Shapes)} {owner : String}
    {e : RegistryError} : ∀ (members : List (Member String)) {seen : List String} {done : Shapes},
      compileMembers compile owner seen members done = .error e →
      (∃ name, e = .duplicate (.member owner name) ∧ (seen ++ members.map Member.name).Duplicate name) ∨
        ∃ m ∈ members, ∃ ref, m.reference? = some ref ∧ ∃ done, compile ref done = .error e := by
  intro members
  induction members with
  | nil =>
    intro seen done h
    cases h
  | cons m rest ih =>
    intro seen done h
    unfold compileMembers at h
    simp only [List.contains_iff_mem] at h
    split at h
    · rename_i hseen
      cases h
      exact .inl ⟨m.name, rfl, duplicate_of_seen hseen⟩
    · split at h
      · rename_i hm
        cases h
        refine .inr ⟨m, List.mem_cons_self, ?_⟩
        cases m with
        | field decl => cases hm
        | nested name description ref | table name description ref =>
          exact ⟨ref, rfl, done, Outcome.map_eq_error.mp hm⟩
      · rcases ih (Outcome.map_eq_error.mp h) with ⟨name, rfl, hagain⟩ | ⟨m', hm', href⟩
        · exact .inl ⟨name, rfl, duplicate_of_cons hagain⟩
        · exact .inr ⟨m', List.mem_cons_of_mem _ hm', href⟩

/-- A reference is refused where it closes the chain, where a member of its structure is refused, and where there is no
such structure. -/
theorem compileShape_eq_error {defs : List StructureDef} {chain : List String} {owner name : String} {done : Shapes}
    {e : RegistryError} (h : compileShape defs chain owner name done = .error e) :
    (name ∈ chain ∧ e = .cycle .structures (closedChain chain name)) ∨
      (name ∉ chain ∧ ∃ g ∈ defs, g.name = name ∧
        compileMembers (compileShape defs (chain ++ [name]) name) name [] g.members done = .error e) ∨
      (name ∉ defs.map (·.name) ∧ e = .unknownStructure name owner) := by
  rw [compileShape_eq, shapeStep] at h
  split at h
  · rename_i hchain
    cases h
    exact .inl ⟨by simpa using hchain, rfl⟩
  rename_i hchain
  split at h
  · cases h
  split at h
  · rename_i hmissing
    cases h
    exact .inr (.inr ⟨Lookup.find?_eq_none.mp hmissing, rfl⟩)
  · rename_i g hfound
    split at h
    · rename_i hmembers
      cases h
      exact .inr (.inl ⟨by simpa using hchain, g, List.mem_of_find?_eq_some hfound, Lookup.name_of_find? hfound, hmembers⟩)
    · cases h

section

variable {d : Definition} {e : RegistryError}

/-- A structure is compiled for itself, or because its owner refers to it. -/
def Asked (d : Definition) (owner name : String) : Prop :=
  name ∈ d.structures.map (·.name) ∨ ∃ members, d.Owns owner members ∧ ∃ m ∈ members, m.reference? = some name

/-- The members of an owner are refused truthfully where the references are. -/
theorem compileMembers_truthful {compile : String → Shapes → Except RegistryError (Shape × Shapes)} {owner : String}
    {members : List (Member String)} {done : Shapes} (howner : d.Owns owner members)
    (hc : ∀ m ∈ members, ∀ ref, m.reference? = some ref → ∀ done, compile ref done = .error e → e.Truthful d)
    (h : compileMembers compile owner [] members done = .error e) : e.Truthful d := by
  rcases compileMembers_eq_error members h with ⟨name, rfl, hagain⟩ | ⟨m, hm, ref, href, done, he⟩
  · exact ⟨members, howner, hagain⟩
  · exact hc m hm ref href done he

/-- The induction is along the chain: the members of a structure are compiled with its name on it. -/
theorem compileShape_truthful : ∀ (chain : List String) (owner name : String) (done : Shapes),
    (chain ++ [name]).IsChain (Refers d.structures) → Asked d owner name →
    compileShape d.structures chain owner name done = .error e → e.Truthful d := by
  refine chain_induction (d.structures.map (·.name)) fun chain ih => ?_
  intro owner name done hchain hasked h
  rcases compileShape_eq_error h with ⟨hname, rfl⟩ | ⟨hnew, g, hg, rfl, hmembers⟩ | ⟨hmissing, rfl⟩
  · exact closedChain_closes hchain hname
  · refine compileMembers_truthful (.inl ⟨g, hg, rfl, rfl⟩) ?_ hmembers
    intro m hm ref href done he
    have hnext : Asked d g.name ref := .inr ⟨g.members, .inl ⟨g, hg, rfl, rfl⟩, m, hm, href⟩
    exact ih g.name (List.mem_map_of_mem hg) hnew g.name ref done (isChain_push hchain ⟨g, hg, rfl, m, hm, href⟩) hnext he
  · exact ⟨hasked.resolve_left hmissing, hmissing⟩

/-- A reference that no other is behind is refused truthfully. -/
theorem compileShape_top_truthful {owner name : String} {done : Shapes} (hasked : Asked d owner name)
    (h : compileShape d.structures [] owner name done = .error e) : e.Truthful d :=
  compileShape_truthful [] owner name done (List.isChain_singleton name) hasked h

theorem compileStructures_truthful : ∀ (gs : List StructureDef) {done : Shapes}, gs ⊆ d.structures →
    compileStructures d.structures gs done = .error e → e.Truthful d := by
  intro gs
  induction gs with
  | nil =>
    intro done _ h
    cases h
  | cons g rest ih =>
    intro done hsub h
    rw [List.cons_subset] at hsub
    unfold compileStructures at h
    split at h
    · rename_i hg
      cases h
      exact compileShape_top_truthful (.inl (List.mem_map_of_mem hsub.1)) hg
    · exact ih hsub.2 h

theorem compileParameters_truthful {f : FunctionDef} {shapeName : String} {members : List (Member String)} {done : Shapes}
    (howner : d.Owns f.name members) (h : compileParameters d.structures f shapeName members done = .error e) :
    e.Truthful d := by
  refine compileMembers_truthful howner ?_ (Outcome.map_eq_error.mp h)
  intro m hm ref href done he
  exact compileShape_top_truthful (.inr ⟨members, howner, m, hm, href⟩) he

theorem compileFunction_truthful {f : FunctionDef} {done : Shapes} (hf : f ∈ d.functions)
    (h : compileFunction d.structures done f = .error e) : e.Truthful d := by
  unfold compileFunction at h
  split at h
  · rename_i hrequest
    cases h
    exact compileParameters_truthful (.inr ⟨f, hf, rfl, .inl rfl⟩) hrequest
  · exact compileParameters_truthful (.inr ⟨f, hf, rfl, .inr rfl⟩) (Outcome.map_eq_error.mp h)

/-- Functions are refused where one of them is, or for a name that comes again. -/
theorem compileFunctions_truthful {done : Shapes} : ∀ (fs : List FunctionDef) {seen : List String}, fs ⊆ d.functions →
    (∀ name, (seen ++ fs.map (·.name)).Duplicate name → (d.functions.map (·.name)).Duplicate name) →
    compileFunctions d.structures done seen fs = .error e → e.Truthful d := by
  intro fs
  induction fs with
  | nil =>
    intro seen _ _ h
    cases h
  | cons f rest ih =>
    intro seen hsub hagain h
    rw [List.cons_subset] at hsub
    simp only [compileFunctions, List.contains_iff_mem] at h
    split at h
    · rename_i hf
      cases h
      exact compileFunction_truthful hsub.1 hf
    · split at h
      · rename_i hseen
        cases h
        exact hagain _ (duplicate_of_seen hseen)
      · exact ih hsub.2 (fun name hname => hagain name (duplicate_of_cons hname)) (Outcome.map_eq_error.mp h)

end

/-! ## Message types -/

/-- Children are refused for a type that comes again, or where a reference is; what is done by then is closed. -/
theorem compileChildren_eq_error {d : MessageDef} {chain : List String} {level : Nat}
    {compile : String → Leveled → Except RegistryError (SegmentType × Leveled)} (hc : Delivers d chain level compile)
    {parent : String} {e : RegistryError} : ∀ (children : List ChildDef) {seen : List String} {done : Leveled},
      Closed d done → (∀ c ∈ children, d.Reaches level c.segmentType) →
      compileChildren compile parent level seen children done = .error e →
      (∃ name, e = .duplicate (.child parent name) ∧ (seen ++ children.map (·.segmentType)).Duplicate name) ∨
        ∃ c ∈ children, ∃ done, Closed d done ∧ compile c.segmentType done = .error e := by
  intro children
  induction children with
  | nil =>
    intro seen done _ _ h
    cases h
  | cons c rest ih =>
    intro seen done hdone hr h
    rw [List.forall_mem_cons] at hr
    simp only [compileChildren, List.contains_iff_mem] at h
    split at h
    · rename_i hseen
      cases h
      exact .inl ⟨c.segmentType, rfl, duplicate_of_seen hseen⟩
    · split at h
      · rename_i he
        cases h
        exact .inr ⟨c, List.mem_cons_self, done, hdone, he⟩
      · rename_i t mid ht
        obtain ⟨hmid, -⟩ := hc _ _ _ _ hdone hr.1 ht
        rcases ih hmid hr.2 (Outcome.map_eq_error.mp h) with ⟨name, rfl, hagain⟩ | ⟨c', hc', he⟩
        · exact .inl ⟨name, rfl, duplicate_of_cons hagain⟩
        · exact .inr ⟨c', List.mem_cons_of_mem _ hc', he⟩

/-- A reference is refused where it closes the chain, where its type is done at another level, for a fault among the
fields or the children of the type, and where there is no such type. -/
theorem compileSegment_eq_error {key : TypeKey} {defs : List SegmentDef} {chain : List String} {parent : String}
    {level : Nat} {name : String} {done : Leveled} {e : RegistryError}
    (h : compileSegment key defs chain parent level name done = .error e) :
    (name ∈ chain ∧ e = .cycle .segments (closedChain chain name)) ∨
      (∃ first t, (first, t) ∈ done ∧ t.name = name ∧ first ≠ level ∧
        e = .inconsistentLevel key.id name first level) ∨
      (name ∉ chain ∧ ∃ s ∈ defs, s.segmentType = name ∧
        (compileFields name s.fields = .error e ∨
          compileChildren (compileSegment key defs (chain ++ [name]) name (level + 1)) name (level + 1) [] s.children
            done = .error e)) ∨
      (name ∉ defs.map (·.segmentType) ∧ e = .unknownSegment key.id name parent) := by
  rw [compileSegment_eq, segmentStep] at h
  split at h
  · rename_i hchain
    cases h
    exact .inl ⟨by simpa using hchain, rfl⟩
  rename_i hchain
  split at h
  · rename_i first t hfound
    split at h
    · cases h
    · rename_i hlevel
      cases h
      have hname : t.name = name := Lookup.name_of_find? (f := fun p : Nat × SegmentType => p.2.name) hfound
      exact .inr (.inl ⟨first, t, List.mem_of_find?_eq_some hfound, hname, hlevel, rfl⟩)
  split at h
  · rename_i hmissing
    cases h
    exact .inr (.inr (.inr ⟨Lookup.find?_eq_none.mp hmissing, rfl⟩))
  · rename_i s hfound
    refine .inr (.inr (.inl ⟨by simpa using hchain, s, List.mem_of_find?_eq_some hfound, Lookup.name_of_find? hfound, ?_⟩))
    split at h
    · rename_i hfields
      cases h
      exact .inl hfields
    · rename_i hchildren
      cases h
      exact .inr hchildren
    · cases h

section

variable {d : Definition} {m : MessageDef} {e : RegistryError}

/-- The children under a segment type or the root are refused truthfully where the references are. -/
theorem compileChildren_truthful (hm : m ∈ d.messageTypes) {chain : List String} {level : Nat}
    {compile : String → Leveled → Except RegistryError (SegmentType × Leveled)} (hdelivers : Delivers m chain level compile)
    {parent : String} {children : List ChildDef} {done : Leveled} (hlists : m.Lists parent children)
    (hdone : Closed m done) (hr : ∀ c ∈ children, m.Reaches level c.segmentType)
    (hc : ∀ c ∈ children, ∀ done, Closed m done → compile c.segmentType done = .error e → e.Truthful d)
    (h : compileChildren compile parent level [] children done = .error e) : e.Truthful d := by
  rcases compileChildren_eq_error hdelivers children hdone hr h with ⟨name, rfl, hagain⟩ | ⟨c, hmem, done, hdone, he⟩
  · exact ⟨m, hm, children, hlists, hagain⟩
  · exact hc c hmem done hdone he

/-- The induction is along the chain: the children of a type are compiled with its name on it. -/
theorem compileSegment_truthful (hm : m ∈ d.messageTypes) : ∀ (chain : List String) (parent : String) (level : Nat)
    (name : String) (done : Leveled), (chain ++ [name]).IsChain m.References → m.References parent name →
    m.Reaches level name → Closed m done →
    compileSegment m.key m.segments chain parent level name done = .error e → e.Truthful d := by
  refine chain_induction m.listed fun chain ih => ?_
  intro parent level name done hchain href hr hdone h
  rcases compileSegment_eq_error h with
    ⟨hname, rfl⟩ | ⟨first, t, ht, rfl, hlevel, rfl⟩ | ⟨hnew, s, hs, rfl, hbelow⟩ | ⟨hmissing, rfl⟩
  · exact ⟨m, hm, closedChain_closes hchain hname⟩
  · exact ⟨hlevel, m, hm, rfl, hdone.reached _ ht, hr⟩
  · rcases hbelow with hfields | hchildren
    · obtain ⟨name, rfl, hagain⟩ := compileFields_eq_error hfields
      exact ⟨m, hm, s, hs, rfl, hagain⟩
    · have hlists : m.Lists s.segmentType s.children := .inr ⟨s, hs, rfl, rfl⟩
      have hreached : ∀ c ∈ s.children, m.Reaches (level + 1) c.segmentType := fun c h => .child hr hs h
      refine compileChildren_truthful hm (compileSegment_delivers m _ _ _) hlists hdone hreached ?_ hchildren
      intro c hmem done hdone he
      have hnext : m.References s.segmentType c.segmentType := ⟨s.children, hlists, c, hmem, rfl⟩
      exact ih s.segmentType (List.mem_map_of_mem hs) hnew s.segmentType (level + 1) c.segmentType done
        (isChain_push hchain hnext) hnext (hreached c hmem) hdone he
  · exact ⟨m, hm, rfl, href, hmissing⟩

theorem compileMessageType_truthful (hm : m ∈ d.messageTypes) (h : compileMessageType m = .error e) : e.Truthful d := by
  unfold compileMessageType at h
  split at h
  · rename_i name hclash
    cases h
    exact ⟨m, hm, clashingSegment?_eq_some hclash⟩
  · have hlists : m.Lists rootType m.root := .inl ⟨rfl, rfl⟩
    refine compileChildren_truthful hm (compileSegment_delivers m _ _ _) hlists (closed_nil m) (fun c h => .top h) ?_
      (Outcome.map_eq_error.mp h)
    intro c hmem done hdone he
    have hnext : m.References rootType c.segmentType := ⟨m.root, hlists, c, hmem, rfl⟩
    exact compileSegment_truthful hm [rootType] rootType 1 c.segmentType done (List.isChain_pair.mpr hnext) hnext
      (.top hmem) hdone he

/-- Message types are refused where one of them is, or for a key that comes again. -/
theorem compileMessageTypes_truthful : ∀ (ms : List MessageDef) {seen : List TypeKey}, ms ⊆ d.messageTypes →
    (∀ key, (seen ++ ms.map (·.key)).Duplicate key → (d.messageTypes.map (·.key)).Duplicate key) →
    compileMessageTypes seen ms = .error e → e.Truthful d := by
  intro ms
  induction ms with
  | nil =>
    intro seen _ _ h
    cases h
  | cons m rest ih =>
    intro seen hsub hagain h
    rw [List.cons_subset] at hsub
    simp only [compileMessageTypes, List.contains_iff_mem] at h
    split at h
    · rename_i hseen
      cases h
      exact ⟨m.key, rfl, hagain _ (duplicate_of_seen hseen)⟩
    · split at h
      · rename_i hm
        cases h
        exact compileMessageType_truthful hsub.1 hm
      · exact ih hsub.2 (fun key hkey => hagain key (duplicate_of_cons hkey)) (Outcome.map_eq_error.mp h)

end

end Compile

namespace Registry

open Compile

/-- A definition that is refused is refused with an error that says what is so of it. -/
theorem faults_truthful {d : Definition} {e : RegistryError} (h : compile d = .error e) : e.Truthful d := by
  unfold compile at h
  split at h
  · rename_i name hagain
    cases h
    exact firstRepeated?_eq_some hagain
  split at h
  · rename_i hstructures
    cases h
    exact compileStructures_truthful d.structures (List.Subset.refl _) hstructures
  split at h
  · rename_i hfunctions
    cases h
    exact compileFunctions_truthful d.functions (List.Subset.refl _) (fun name h => h) hfunctions
  · exact compileMessageTypes_truthful d.messageTypes (List.Subset.refl _) (fun key h => h) (Outcome.map_eq_error.mp h)

/-- Orders whose items have notes and parts, and whose parts have items again. -/
def partedOrders : MessageDef :=
  { key := ⟨"R", "ORDER", "", "", ""⟩
    root := [{ segmentType := "HEAD" }]
    segments :=
      [{ segmentType := "HEAD", children := [{ segmentType := "ITEM" }] },
       { segmentType := "ITEM", children := [{ segmentType := "NOTE" }, { segmentType := "PART" }] },
       { segmentType := "NOTE" },
       { segmentType := "PART", children := [{ segmentType := "ITEM" }] }] }

/-- The cycle starts at the items: the head is no part of it, and notes were done before it was found. -/
theorem faults_truthful_parts :
    compile { messageTypes := [partedOrders] } = .error (.cycle .segments ["ITEM", "PART", "ITEM"]) ∧
      Closes partedOrders.References ["ITEM", "PART", "ITEM"] := by
  have hrefused : compile { messageTypes := [partedOrders] } = .error (.cycle .segments ["ITEM", "PART", "ITEM"]) := rfl
  refine ⟨hrefused, ?_⟩
  obtain ⟨m, hm, hcloses⟩ := faults_truthful hrefused
  rwa [List.mem_singleton.mp hm] at hcloses

end Registry

end DocWire
