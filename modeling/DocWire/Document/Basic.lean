/-
  DocWire.Document.Basic — documents and their segments.

  A document keeps its segments in the order in which they were made; a segment is known by its place in
  that order, and number 0 is the root. A segment holds the numbers of its children and of its parent, and
  its fields in the order of their declaration, each set or not. Segments are added and never removed, so
  a number stays good for the life of the document.

  Field names and child types are given in local or qualified form. A value must be of the kind that the
  field's type takes, and a child type may occur no more often than its slot says; both are checked when
  they are set, so a document never holds what it may not.
-/

import DocWire.Calendar.Stamp
import DocWire.Document.Acceptance
import DocWire.Document.Header
import DocWire.Document.Tree
import DocWire.Schema.MessageType

namespace DocWire

structure Segment where
  type : SegmentType
  /-- The number of the segment above; the root has none. -/
  parent : Option Nat
  level : Nat
  /-- The value of every declared field, in the order of declaration. -/
  fields : List (Option Value)
  /-- The numbers of the children, in the order in which they were added. -/
  children : List Nat
  deriving DecidableEq, Inhabited

namespace Segment

/-- A segment without values and children. -/
def blank (type : SegmentType) (parent : Option Nat) (level : Nat) : Segment :=
  ⟨type, parent, level, List.replicate type.fields.length none, []⟩

/-- The set fields with their declarations, in the order of declaration. -/
def entries (s : Segment) : List (FieldDecl × Value) :=
  (s.type.fields.zip s.fields).filterMap fun (decl, value?) => value?.map fun value => (decl, value)

def fieldCount (s : Segment) : Nat := (s.fields.filterMap id).length

/-- The declared field that a name means, with its place. -/
def resolve (s : Segment) (own : Option String) (name : String) : Except ModelError (Nat × FieldDecl) :=
  match s.type.fieldIndex? own name with
  | none => .error (.unknownField s.type.name name)
  | some i =>
    match s.type.fields[i]? with
    | none => .error (.unknownField s.type.name name)
    | some decl => .ok (i, decl)

def get (s : Segment) (own : Option String) (name : String) : Except ModelError (Option Value) :=
  (s.resolve own name).map fun (i, _) => (s.fields[i]?).join

end Segment

structure Document where
  schema : MessageType
  header : Header
  /-- When the document was made; no reader restores it. -/
  creation : Stamp
  segments : Array Segment

namespace Document

/-- The header that a document of a message type starts with. -/
def seededHeader (key : TypeKey) : Header :=
  let h := Header.empty.set .idocType key.basicType
  let h := if key.extension.isEmpty then h else h.set .idocTypeExtension key.extension
  if key.systemRelease.isEmpty then h else h.set .idocSapRelease key.systemRelease

/-- A document with its root segment alone. -/
def new (schema : MessageType) (creation : Stamp) : Document :=
  ⟨schema, seededHeader schema.key, creation, #[.blank schema.root none 0]⟩

def key (d : Document) : TypeKey := d.schema.key

/-- The number of the root segment. -/
def rootId : Nat := 0

def segment? (d : Document) (id : Nat) : Option Segment := d.segments[id]?

def segmentCount (d : Document) : Nat := d.segments.size

/-- Sets a field of the header. -/
def setHeader (d : Document) (field : HeaderField) (value : String) : Document :=
  { d with header := d.header.set field value }

def unsetHeader (d : Document) (field : HeaderField) : Document :=
  { d with header := d.header.unset field }

/-! ## Segments -/

/-- Replaces the fields of a segment. -/
def putFields (d : Document) (id : Nat) (fields : List (Option Value)) : Document :=
  { d with segments := d.segments.modify id fun s => { s with fields := fields } }

/-- What a field becomes: the change may depend on its declaration, and may be refused. -/
def changeField (d : Document) (id : Nat) (name : String)
    (change : FieldDecl → Except ModelError (Option Value)) : Except ModelError Document :=
  match d.segment? id with
  | none => .error (.noSegment id)
  | some s =>
    match s.resolve d.schema.ns name with
    | .error e => .error e
    | .ok (i, decl) => (change decl).map fun value? => d.putFields id (s.fields.set i value?)

def set (d : Document) (id : Nat) (name : String) (value : Value) : Except ModelError Document :=
  d.changeField id name (·.accept value)

/-- Sets a field from its wire string. -/
def setWire (d : Document) (id : Nat) (name : String) (text : String) : Except ModelError Document :=
  d.changeField id name (·.acceptWire text)

def unset (d : Document) (id : Nat) (name : String) : Except ModelError Document :=
  d.changeField id name fun _ => .ok none

/-- The value of a field, or nothing when it is unset. -/
def get (d : Document) (id : Nat) (name : String) : Except ModelError (Option Value) :=
  match d.segment? id with
  | none => .error (.noSegment id)
  | some s => s.get d.schema.ns name

/-- The segment type of a segment, by its number. -/
def typeName? (d : Document) (id : Nat) : Option String := (d.segment? id).map (·.type.name)

/-- The children of a segment that are of a segment type. -/
def childrenNamed (d : Document) (s : Segment) (segmentType : String) : List Nat :=
  s.children.filter fun c => d.typeName? c == some segmentType

/-- The children of the type that a name means. -/
def childrenOfType (d : Document) (id : Nat) (name : String) : Except ModelError (List Nat) :=
  match d.segment? id with
  | none => .error (.noSegment id)
  | some s =>
    match s.type.child? d.schema.ns name with
    | none => .error (.unknownChild s.type.name name)
    | some slot => .ok (d.childrenNamed s slot.segmentType)

/-- Appends a segment under `id`. -/
def append (d : Document) (id : Nat) (parent : Segment) (type : SegmentType) : Document :=
  { d with
    segments := (d.segments.push (.blank type (some id) (parent.level + 1))).modify id
      fun s => { s with children := s.children ++ [d.segments.size] } }

/-- Adds a child of the type that a name means, and gives its number: the count of segments so far. -/
def addChild (d : Document) (id : Nat) (name : String) : Except ModelError (Document × Nat) :=
  match d.segment? id with
  | none => .error (.noSegment id)
  | some s =>
    match d.schema.childOf? s.type name with
    | none => .error (.unknownChild s.type.name name)
    | some (slot, type) =>
      if (d.childrenNamed s slot.segmentType).length < slot.maxOccurrence then
        .ok (d.append id s type, d.segments.size)
      else .error (.occurrenceExceeded s.type.name slot.segmentType slot.maxOccurrence)

/-- The segment at the end of a path of child places, from the root. -/
def segmentAt? (d : Document) (path : List Nat) : Option Nat :=
  path.foldlM (fun id place => (d.segment? id).bind (·.children[place]?)) rootId

/-! ## All segments -/

/-- The numbers of the children of a segment. -/
def childrenOf (d : Document) (id : Nat) : List Nat := ((d.segment? id).map (·.children)).getD []

/-- Visits what waits, each segment before its children; at most `room` segments. -/
def visit (d : Document) : Nat → List Nat → List Nat
  | 0, _ => []
  | _, [] => []
  | room + 1, id :: waiting => id :: visit d room (d.childrenOf id ++ waiting)

/-- The numbers of all segments in depth-first pre-order. -/
def order (d : Document) : List Nat := d.visit d.segmentCount [rootId]

/-- The tree of numbers below a segment, at most `room` levels deep. -/
def treeBelow (d : Document) : Nat → Nat → Tree Nat
  | 0, id => .node id []
  | room + 1, id => .node id ((d.childrenOf id).map (treeBelow d room))

/-- The tree of the numbers of all segments. -/
def idTree (d : Document) : Tree Nat := d.treeBelow d.segmentCount rootId

/-- The tree of all segments. -/
def tree (d : Document) : Tree Segment := d.idTree.map fun id => (d.segment? id).getD default

end Document

end DocWire
