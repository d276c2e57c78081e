/-
  DocWire.Schema.Listing — compiled types as data trees.

  A listing shows what the compiler made of a definition: keys, levels, and for a nested member the name of
  its type in place of the type itself. Types stand in the order of their keys or names, segment types in
  that of the bytes of their keys.
-/

import DocWire.Schema.Authored
import DocWire.Schema.Registry

namespace DocWire.Listing

open Authored

def ofChildSlot (c : ChildSlot) : Node :=
  .record [("key", .text c.key), ("segment_type", .text c.segmentType), ("description", .text c.description),
    ("hierarchy_level", .natural c.level), ("min_occurrence", .natural c.minOccurrence),
    ("max_occurrence", .natural c.maxOccurrence), ("mandatory", .bool c.mandatory),
    ("qualified", .bool c.qualified), ("locked", .bool c.locked)]

def ofSegmentType (t : SegmentType) : Node :=
  .record [("key", .text t.key), ("segment_type", .text t.name), ("description", .text t.description),
    ("fields", .list (t.fields.map ofField)), ("children", .list (t.children.map ofChildSlot)),
    ("is_root", .bool t.isRoot)]

def ofShapeMember : Member Shape → Node
  | .field f => .record [("field", ofField f)]
  | .nested name description shape =>
    .record [("name", .text name), ("description", .text description), ("structure", .text shape.name)]
  | .table name description row =>
    .record [("name", .text name), ("description", .text description), ("row", .text row.name)]

def ofShape (s : Shape) : Node :=
  .record [("name", .text s.name), ("description", .text s.description),
    ("members", .list (s.members.map ofShapeMember))]

def ofKey (k : TypeKey) : Node :=
  .record (("id", .text k.id) :: keyMembers k)

def ofMessageType (m : MessageType) : Node :=
  let segments := m.allSegments.mergeSort fun a b => a.key ≤ b.key
  .record [("key", ofKey m.key), ("namespace", textOrNull m.ns), ("description", .text m.description),
    ("segment_count", .natural m.allSegments.length), ("root", .text m.root.key),
    ("segments", .list (segments.map ofSegmentType))]

def ofFunction (f : Function) : Node :=
  .record [("name", .text f.name), ("namespace", textOrNull f.ns), ("description", .text f.description),
    ("request", ofShape f.request), ("response", ofShape f.response)]

/-- The message types and functions of a registry, each in order. -/
def ofRegistry (r : Registry) : Node :=
  let messageTypes := r.messageTypes.mergeSort fun a b => a.key.le b.key
  let functions := r.functions.mergeSort fun a b => a.name ≤ b.name
  .record [("idocs", .list (messageTypes.map ofMessageType)), ("functions", .list (functions.map ofFunction))]

end DocWire.Listing
