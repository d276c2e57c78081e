/-
  DocWire.Schema.Compile — definitions with every reference resolved.

  Structures and segment types refer to each other by name. Each is compiled once, when it is first
  reached: the chain of names on the way is kept, so that a reference back into it is a cycle, and what is
  done is kept, so that a second reference takes the same result. A segment type that is reached twice must
  be reached at one level.

  A reference is taken up only under a defined name that is not on the chain yet. So with each one there are
  fewer names left (`spare_push`), and references are followed to an end (`follow`). The bound on the depth
  comes with a proof that it is enough: at its end there is nothing to follow, and nothing is refused for it.
-/

import DocWire.Schema.Definition
import DocWire.Schema.Error
import DocWire.Schema.MessageType
import DocWire.Schema.Shape

namespace DocWire.Compile

/-- The first item that also stands before itself. -/
def firstRepeated? (seen : List String) : List String → Option String
  | [] => none
  | name :: rest => if seen.contains name then some name else firstRepeated? (name :: seen) rest

/-- The namespace of a definition: the one it states, else the one of its name. -/
def ownNamespace (stated : Option String) (name : String) : Option String :=
  stated.or (Name.namespace? name)

/-- The chain of references that a name closes. -/
def closedChain (chain : List String) (name : String) : List String :=
  chain.dropWhile (· != name) ++ [name]

/-! ## Chains -/

/-- How many of the names are not on a chain. -/
def spare (names chain : List String) : Nat := names.countP fun name => !chain.contains name

/-- With a name that is put on the chain there are fewer left. -/
theorem spare_push {names chain : List String} {name : String} (hnew : chain.contains name = false)
    (hname : name ∈ names) : spare names (chain ++ [name]) < spare names chain := by
  obtain ⟨before, behind, rfl⟩ := List.append_of_mem hname
  have hle (names : List String) : spare names (chain ++ [name]) ≤ spare names chain :=
    List.countP_mono_left fun other _ h => by
      simp only [List.contains_append, Bool.not_or, Bool.and_eq_true] at h
      exact h.1
  have hbefore := hle before
  have hbehind := hle behind
  have hself : (chain ++ [name]).contains name = true := by simp
  simp only [spare, List.countP_append, List.countP_cons, hnew, hself] at hbefore hbehind ⊢
  simp only [Bool.not_true, Bool.not_false, Bool.false_eq_true, if_false, if_true]
  omega

/-- The value of a chain, which `step` makes from the values of the chains with one name more; `room` bounds how many
names can still be put on the chain. -/
def followWithin {β : Type} (names : List String)
    (step : (chain : List String) → ((name : String) → chain.contains name = false → name ∈ names → β) → β) :
    (room : Nat) → (chain : List String) → spare names chain ≤ room → β
  | 0, chain, hroom =>
    step chain fun _ hnew hname => absurd (Nat.lt_of_lt_of_le (spare_push hnew hname) hroom) (Nat.not_lt_zero _)
  | room + 1, chain, hroom =>
    step chain fun name hnew hname =>
      followWithin names step room (chain ++ [name])
        (Nat.le_of_lt_succ (Nat.lt_of_lt_of_le (spare_push hnew hname) hroom))

/-- The value of a chain, which `step` makes from the values of the chains with one name more. -/
def follow {β : Type} (names : List String)
    (step : (chain : List String) → ((name : String) → chain.contains name = false → name ∈ names → β) → β)
    (chain : List String) : β :=
  followWithin names step (spare names chain) chain (Nat.le_refl _)

/-- What is found under a name is defined. -/
theorem defined_of_find? {α : Type} {f : α → String} {defs : List α} {name : String} {d : α}
    (hd : defs.find? (f · == name) = some d) : name ∈ defs.map f :=
  List.mem_map.mpr ⟨d, List.mem_of_find?_eq_some hd, by simpa using List.find?_some hd⟩

/-! ## Fields -/

/-- Record lengths wrap at 64 bits. -/
def addOffset (offset length : Nat) : Nat := (offset + length) % Nat.pow 2 64

/-- Places the fields one behind the other; a byte length of 0 stands for the length on the wire. -/
def placeFields (offset : Nat) : List FieldDecl → List FieldDecl
  | [] => []
  | f :: rest =>
    let byteLength := if f.byteLength = 0 then f.length else f.byteLength
    { f with byteLength := byteLength, offset := offset } ::
      placeFields (addOffset offset byteLength) rest

/-- The fields of a segment type: their names are distinct, and they are placed in order where none of
them states its place. -/
def compileFields (owner : String) (fields : List FieldDecl) : Except RegistryError (List FieldDecl) :=
  match firstRepeated? [] (fields.map (·.name)) with
  | some name => .error (.duplicate (.field owner name))
  | none => .ok (if fields.all (·.offset == 0) then placeFields 0 fields else fields)

/-! ## Structures -/

/-- The shapes that are done, in the order in which they were. -/
abbrev Shapes := List Shape

/-- The members of `owner` with their references resolved by `compile`, one after the other. -/
def compileMembers (compile : String → Shapes → Except RegistryError (Shape × Shapes)) (owner : String)
    (seen : List String) : List (Member String) → Shapes → Except RegistryError (List (Member Shape) × Shapes)
  | [], done => .ok ([], done)
  | m :: rest, done =>
    if seen.contains m.name then .error (.duplicate (.member owner m.name))
    else
      let resolved : Except RegistryError (Member Shape × Shapes) :=
        match m with
        | .field f => .ok (.field f, done)
        | .nested name description ref =>
          (compile ref done).map fun (shape, done) => (.nested name description shape, done)
        | .table name description ref =>
          (compile ref done).map fun (row, done) => (.table name description row, done)
      match resolved with
      | .error e => .error e
      | .ok (m', done) =>
        (compileMembers compile owner (m.name :: seen) rest done).map fun (ms, done) => (m' :: ms, done)

/-- The shape of the structure `name`, which `referencedBy` refers to, its members being compiled by `below`. -/
def shapeStep (defs : List StructureDef) (chain : List String) (referencedBy name : String) (done : Shapes)
    (below : (d : StructureDef) → chain.contains name = false → defs.find? (·.name == name) = some d →
      Except RegistryError (List (Member Shape) × Shapes)) : Except RegistryError (Shape × Shapes) :=
  match hnew : chain.contains name with
  | true => .error (.cycle .structures (closedChain chain name))
  | false =>
    match done.find? (·.name == name) with
    | some shape => .ok (shape, done)
    | none =>
      match hd : defs.find? (·.name == name) with
      | none => .error (.unknownStructure name referencedBy)
      | some d =>
        match below d hnew hd with
        | .error e => .error e
        | .ok (members, done) =>
          let shape := Shape.mk name d.description members
          .ok (shape, done ++ [shape])

/-- The shape of the structure `name`, which `referencedBy` refers to. -/
def compileShape (defs : List StructureDef) :
    (chain : List String) → (referencedBy name : String) → Shapes → Except RegistryError (Shape × Shapes) :=
  follow (defs.map (·.name)) fun chain compile referencedBy name done =>
    shapeStep defs chain referencedBy name done fun d hnew hd =>
      compileMembers (compile name hnew (defined_of_find? hd) name) name [] d.members done

/-- All structures, in the order of their definitions. -/
def compileStructures (defs : List StructureDef) : List StructureDef → Shapes → Except RegistryError Shapes
  | [], done => .ok done
  | d :: rest, done =>
    match compileShape defs [] d.name d.name done with
    | .error e => .error e
    | .ok (_, done) => compileStructures defs rest done

/-! ## Functions -/

/-- A parameter list as a shape. -/
def compileParameters (defs : List StructureDef) (d : FunctionDef) (shapeName : String)
    (members : List (Member String)) (done : Shapes) : Except RegistryError Shape :=
  (compileMembers (compileShape defs [] d.name) d.name [] members done).map
    fun (members, _) => .mk shapeName d.description members

def compileFunction (defs : List StructureDef) (done : Shapes) (d : FunctionDef) :
    Except RegistryError Function :=
  match compileParameters defs d Function.requestName d.requestMembers done with
  | .error e => .error e
  | .ok request =>
    (compileParameters defs d Function.responseName d.responseMembers done).map fun response =>
      ⟨d.name, ownNamespace d.ns d.name, d.description, request, response⟩

/-- All functions; a name that is taken is noticed behind its function's own faults. -/
def compileFunctions (defs : List StructureDef) (done : Shapes) (seen : List String) :
    List FunctionDef → Except RegistryError (List Function)
  | [] => .ok []
  | d :: rest =>
    match compileFunction defs done d with
    | .error e => .error e
    | .ok f =>
      if seen.contains d.name then .error (.duplicate (.function d.name))
      else (compileFunctions defs done (d.name :: seen) rest).map (f :: ·)

/-! ## Message types -/

/-- The segment types that are done, each with the level at which it was reached. -/
abbrev Leveled := List (Nat × SegmentType)

/-- The slot of a child type, given the segment type that it refers to. -/
def childSlot (level : Nat) (d : ChildDef) (t : SegmentType) : ChildSlot :=
  { key := t.key
    segmentType := d.segmentType
    description := if d.description.isEmpty then t.description else d.description
    level := level
    minOccurrence := d.minOccurrence
    maxOccurrence := d.maxOccurrence
    mandatory := d.mandatory
    qualified := d.qualified || Name.isQualified d.segmentType
    locked := d.locked }

/-- The child slots under `parent`, at `level`, with their references resolved by `compile`. -/
def compileChildren (compile : String → Leveled → Except RegistryError (SegmentType × Leveled))
    (parent : String) (level : Nat) (seen : List String) :
    List ChildDef → Leveled → Except RegistryError (List ChildSlot × Leveled)
  | [], done => .ok ([], done)
  | d :: rest, done =>
    if seen.contains d.segmentType then .error (.duplicate (.child parent d.segmentType))
    else
      match compile d.segmentType done with
      | .error e => .error e
      | .ok (t, done) =>
        (compileChildren compile parent level (d.segmentType :: seen) rest done).map fun (slots, done) =>
          (childSlot level d t :: slots, done)

/-- The segment type `name`, which `parent` refers to at `level`, its children being compiled by `below`. A fault
among its fields comes before one below it. -/
def segmentStep (key : TypeKey) (defs : List SegmentDef) (chain : List String) (parent : String) (level : Nat)
    (name : String) (done : Leveled)
    (below : (d : SegmentDef) → chain.contains name = false → defs.find? (·.segmentType == name) = some d →
      Except RegistryError (List ChildSlot × Leveled)) : Except RegistryError (SegmentType × Leveled) :=
  match hnew : chain.contains name with
  | true => .error (.cycle .segments (closedChain chain name))
  | false =>
    match done.find? (·.2.name == name) with
    | some (first, t) =>
      if first = level then .ok (t, done)
      else .error (.inconsistentLevel key.id name first level)
    | none =>
      match hd : defs.find? (·.segmentType == name) with
      | none => .error (.unknownSegment key.id name parent)
      | some d =>
        match compileFields name d.fields, below d hnew hd with
        | .error e, _ => .error e
        | .ok _, .error e => .error e
        | .ok fields, .ok (slots, done) =>
          let t : SegmentType := ⟨key.segmentKey name, name, d.description, fields, slots⟩
          .ok (t, done ++ [(level, t)])

/-- The segment type `name`, which `parent` refers to at `level`. -/
def compileSegment (key : TypeKey) (defs : List SegmentDef) :
    (chain : List String) → (parent : String) → (level : Nat) → (name : String) → Leveled →
      Except RegistryError (SegmentType × Leveled) :=
  follow (defs.map (·.segmentType)) fun chain compile parent level name done =>
    segmentStep key defs chain parent level name done fun d hnew hd =>
      compileChildren (compile name hnew (defined_of_find? hd) name (level + 1)) name (level + 1) [] d.children done

/-- The first segment type that is listed twice or takes the name of the root. -/
def clashingSegment? (seen : List String) : List SegmentDef → Option String
  | [] => none
  | d :: rest =>
    if d.segmentType == rootType || seen.contains d.segmentType then some d.segmentType
    else clashingSegment? (d.segmentType :: seen) rest

/-- A message type. Segment types that are listed but not reached are left out. -/
def compileMessageType (d : MessageDef) : Except RegistryError MessageType :=
  match clashingSegment? [] d.segments with
  | some name => .error (.duplicate (.segment name))
  | none =>
    let compile := compileSegment d.key d.segments [rootType] rootType 1
    (compileChildren compile rootType 1 [] d.root []).map fun (slots, done) =>
      { key := d.key
        ns := ownNamespace d.ns d.key.basicType
        description := d.description
        root := ⟨d.key.segmentKey rootType, rootType, d.description, [], slots⟩
        segments := done.map (·.2) }

def compileMessageTypes (seen : List TypeKey) : List MessageDef → Except RegistryError (List MessageType)
  | [] => .ok []
  | d :: rest =>
    if seen.contains d.key then .error (.duplicate (.messageType d.key.id))
    else
      match compileMessageType d with
      | .error e => .error e
      | .ok m => (compileMessageTypes (d.key :: seen) rest).map (m :: ·)

end DocWire.Compile
