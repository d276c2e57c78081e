/-
  DocWire.Schema.Authored — definitions as data trees.

  Every record names its members; a member that is left out has its default. A structure's member is
  tagged by its `kind`, and since the tag may stand behind what it decides, the rest of its record is held
  until the tag is known.
-/

import DocWire.Data.Source
import DocWire.Schema.Definition

namespace DocWire.Authored

/-! ## Reading -/

section

variable {δ : Type} {m : Type → Type} [Monad m] [MonadLiftT Option m]

def naturalBits : Nat := 64

/-- A type, by its tag. -/
def readDataType (s : Source δ m) (data : δ) : m DataType := do
  let tag ← s.choice (DataType.all.map (·.tag)) data
  DataType.ofTag? tag

def fieldNames : List String :=
  ["name", "type", "length", "byte_length", "offset", "output_length", "decimals", "description",
   "domain_name", "check_table", "values", "iso_code"]

def readField (s : Source δ m) (data : δ) : m FieldDecl := do
  let members ← s.members fieldNames data
  return {
    name := ← members.require "name" s.text
    type := ← members.require "type" (readDataType s)
    length := ← members.get "length" 0 (s.natural naturalBits)
    byteLength := ← members.get "byte_length" 0 (s.natural naturalBits)
    offset := ← members.get "offset" 0 (s.natural naturalBits)
    outputLength := ← members.get "output_length" 0 (s.natural naturalBits)
    decimals := ← members.get "decimals" 0 (s.natural 32)
    description := ← members.get "description" "" s.text
    domainName := ← members.get "domain_name" "" s.text
    checkTable := ← members.get "check_table" "" s.text
    values := ← members.get "values" [] (s.listOf s.text)
    isoCode := ← members.get "iso_code" false s.bool }

/-- A member of a given kind, from the rest of its record. -/
def heldMember? (kind : String) (rest : Node) : Option (Member String) :=
  let s := Node.held
  match kind with
  | "field" => .field <$> readField s rest
  | "structure" => do
    let members ← s.members ["name", "structure", "description"] rest
    return .nested (← members.require "name" s.text) (← members.get "description" "" s.text)
      (← members.require "structure" s.text)
  | "table" => do
    let members ← s.members ["name", "row", "description"] rest
    return .table (← members.require "name" s.text) (← members.get "description" "" s.text)
      (← members.require "row" s.text)
  | _ => none

def readMember (s : Source δ m) (data : δ) : m (Member String) := do
  let (kind, rest) ← s.tagged "kind" data
  heldMember? kind rest

def readChild (s : Source δ m) (data : δ) : m ChildDef := do
  let members ← s.members
    ["type", "description", "min_occurrence", "max_occurrence", "mandatory", "qualified", "locked"] data
  return {
    segmentType := ← members.require "type" s.text
    description := ← members.get "description" "" s.text
    minOccurrence := ← members.get "min_occurrence" 0 (s.natural naturalBits)
    maxOccurrence := ← members.get "max_occurrence" 1 (s.natural naturalBits)
    mandatory := ← members.get "mandatory" false s.bool
    qualified := ← members.get "qualified" false s.bool
    locked := ← members.get "locked" false s.bool }

def readSegment (s : Source δ m) (data : δ) : m SegmentDef := do
  let members ← s.members ["type", "description", "fields", "children"] data
  return {
    segmentType := ← members.require "type" s.text
    description := ← members.get "description" "" s.text
    fields := ← members.get "fields" [] (s.listOf (readField s))
    children := ← members.get "children" [] (s.listOf (readChild s)) }

def keyNames : List String :=
  ["repository", "idoc_type", "idoc_type_extension", "system_release", "application_release"]

def readKey (s : Source δ m) (data : δ) : m TypeKey := do
  let members ← s.members keyNames data
  return {
    repository := ← members.require "repository" s.text
    basicType := ← members.require "idoc_type" s.text
    extension := ← members.get "idoc_type_extension" "" s.text
    systemRelease := ← members.get "system_release" "" s.text
    applicationRelease := ← members.get "application_release" "" s.text }

def readMessageType (s : Source δ m) (data : δ) : m MessageDef := do
  let members ← s.members ["key", "namespace", "description", "root", "segments"] data
  return {
    key := ← members.require "key" (readKey s)
    ns := ← members.get "namespace" none s.optionalText
    description := ← members.get "description" "" s.text
    root := ← members.get "root" [] (s.listOf (readChild s))
    segments := ← members.get "segments" [] (s.listOf (readSegment s)) }

def readStructure (s : Source δ m) (data : δ) : m StructureDef := do
  let members ← s.members ["name", "description", "members"] data
  return {
    name := ← members.require "name" s.text
    description := ← members.get "description" "" s.text
    members := ← members.get "members" [] (s.listOf (readMember s)) }

def readFunction (s : Source δ m) (data : δ) : m FunctionDef := do
  let members ← s.members
    ["name", "namespace", "description", "import", "export", "changing", "tables"] data
  return {
    name := ← members.require "name" s.text
    ns := ← members.get "namespace" none s.optionalText
    description := ← members.get "description" "" s.text
    imports := ← members.get "import" [] (s.listOf (readMember s))
    exports := ← members.get "export" [] (s.listOf (readMember s))
    changing := ← members.get "changing" [] (s.listOf (readMember s))
    tables := ← members.get "tables" [] (s.listOf (readMember s)) }

def readDefinition (s : Source δ m) (data : δ) : m Definition := do
  let members ← s.members ["idocs", "structures", "functions"] data
  return {
    messageTypes := ← members.get "idocs" [] (s.listOf (readMessageType s))
    structures := ← members.get "structures" [] (s.listOf (readStructure s))
    functions := ← members.get "functions" [] (s.listOf (readFunction s)) }

end

/-! ## Writing -/

def textOrNull : Option String → Node
  | some s => .text s
  | none => .null

/-- The members of a field's record. -/
def fieldMembers (f : FieldDecl) : List (String × Node) :=
  [("name", .text f.name), ("type", .text f.type.tag), ("length", .natural f.length),
   ("byte_length", .natural f.byteLength), ("offset", .natural f.offset), ("output_length", .natural f.outputLength),
   ("decimals", .natural f.decimals), ("description", .text f.description), ("domain_name", .text f.domainName),
   ("check_table", .text f.checkTable), ("values", .list (f.values.map .text)), ("iso_code", .bool f.isoCode)]

def ofField (f : FieldDecl) : Node := .record (fieldMembers f)

def ofMember : Member String → Node
  | .field f => .record (("kind", .text "field") :: fieldMembers f)
  | .nested name description shape =>
    .record [("kind", .text "structure"), ("name", .text name), ("structure", .text shape),
      ("description", .text description)]
  | .table name description row =>
    .record [("kind", .text "table"), ("name", .text name), ("row", .text row),
      ("description", .text description)]

def ofChild (c : ChildDef) : Node :=
  .record [("type", .text c.segmentType), ("description", .text c.description),
    ("min_occurrence", .natural c.minOccurrence), ("max_occurrence", .natural c.maxOccurrence),
    ("mandatory", .bool c.mandatory), ("qualified", .bool c.qualified), ("locked", .bool c.locked)]

def ofSegment (s : SegmentDef) : Node :=
  .record [("type", .text s.segmentType), ("description", .text s.description),
    ("fields", .list (s.fields.map ofField)), ("children", .list (s.children.map ofChild))]

def keyMembers (k : TypeKey) : List (String × Node) := keyNames.zip (k.parts.map .text)

def ofKey (k : TypeKey) : Node := .record (keyMembers k)

def ofMessageType (d : MessageDef) : Node :=
  .record [("key", ofKey d.key), ("namespace", textOrNull d.ns), ("description", .text d.description),
    ("root", .list (d.root.map ofChild)), ("segments", .list (d.segments.map ofSegment))]

def ofStructure (s : StructureDef) : Node :=
  .record [("name", .text s.name), ("description", .text s.description),
    ("members", .list (s.members.map ofMember))]

def ofFunction (f : FunctionDef) : Node :=
  .record [("name", .text f.name), ("namespace", textOrNull f.ns), ("description", .text f.description),
    ("import", .list (f.imports.map ofMember)), ("export", .list (f.exports.map ofMember)),
    ("changing", .list (f.changing.map ofMember)), ("tables", .list (f.tables.map ofMember))]

/-- A definition with all its defaults written out. -/
def ofDefinition (d : Definition) : Node :=
  .record [("idocs", .list (d.messageTypes.map ofMessageType)),
    ("structures", .list (d.structures.map ofStructure)), ("functions", .list (d.functions.map ofFunction))]

end DocWire.Authored
