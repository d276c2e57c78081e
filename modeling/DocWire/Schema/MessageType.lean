/-
  DocWire.Schema.MessageType — the resolved schema of one IDoc message type.

  A segment type lists its fields and the child types that may stand under it. Every child slot carries
  the key of its segment type and the level at which that type stands: the root is at level 0.
-/

import DocWire.Schema.Key
import DocWire.Schema.Field

namespace DocWire

/-- The segment type of every root segment. -/
def rootType : String := "ROOT"

/-- A child type under a segment type. -/
structure ChildSlot where
  /-- The key of the segment type. -/
  key : String
  segmentType : String
  description : String
  level : Nat
  minOccurrence : Nat
  maxOccurrence : Nat
  mandatory : Bool
  qualified : Bool
  locked : Bool
  deriving DecidableEq, Repr

structure SegmentType where
  key : String
  name : String
  description : String
  fields : List FieldDecl
  children : List ChildSlot
  deriving DecidableEq, Repr, Inhabited

namespace SegmentType

def isRoot (t : SegmentType) : Bool := t.name == rootType

/-- The place of the field that a requested name means. -/
def fieldIndex? (t : SegmentType) (own : Option String) (requested : String) : Option Nat :=
  declaredIndex? own (t.fields.map (·.name)) requested

def field? (t : SegmentType) (own : Option String) (requested : String) : Option FieldDecl :=
  (t.fieldIndex? own requested).bind fun i => t.fields[i]?

/-- The child slot that a requested segment type means. -/
def child? (t : SegmentType) (own : Option String) (requested : String) : Option ChildSlot :=
  (declaredIndex? own (t.children.map (·.segmentType)) requested).bind fun i => t.children[i]?

end SegmentType

structure MessageType where
  key : TypeKey
  /-- The namespace that local names stand in. -/
  ns : Option String
  description : String
  root : SegmentType
  /-- The segment types that can be reached from the root, without the root. -/
  segments : List SegmentType
  deriving DecidableEq, Repr

namespace MessageType

/-- The segment types, the root first. -/
def allSegments (m : MessageType) : List SegmentType := m.root :: m.segments

def segment? (m : MessageType) (key : String) : Option SegmentType := m.allSegments.find? (·.key == key)

/-- The slot that a requested child type means under a segment type, and its segment type. -/
def childOf? (m : MessageType) (parent : SegmentType) (requested : String) :
    Option (ChildSlot × SegmentType) :=
  (parent.child? m.ns requested).bind fun slot => (m.segment? slot.key).map fun t => (slot, t)

end MessageType

end DocWire
