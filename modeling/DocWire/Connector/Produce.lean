/-
  DocWire.Connector.Produce — native objects made from documents and parameter sets.

  Set values are encoded in the order of their declarations, those of a segment or record before what lies
  below it; the first that cannot be encoded refuses the whole. Unset fields leave nothing behind, nor do
  tables without rows.
-/

import DocWire.Connector.Native
import DocWire.Document.Batch
import DocWire.Parameters.Record

namespace DocWire.Native

/-- The wire string of a field's value. -/
def encodeField (decl : FieldDecl) (value : Value) : Except ConnectorError String :=
  (Coercion.encode decl.format value).mapError (.field decl.name decl.type value.display)

def encodeEntries (entries : List (FieldDecl × Value)) : Except ConnectorError WireValues :=
  entries.mapM fun (decl, value) => (encodeField decl value).map fun wire => (decl.name, wire)

/-! ## Documents -/

mutual

def ofSegment : Tree Segment → Except ConnectorError NativeSegment
  | .node s children =>
    match encodeEntries s.entries with
    | .error e => .error e
    | .ok values => (ofSegments children).map (.mk s.type.name values)

def ofSegments : List (Tree Segment) → Except ConnectorError (List NativeSegment)
  | [] => .ok []
  | t :: rest =>
    match ofSegment t with
    | .error e => .error e
    | .ok s => (ofSegments rest).map (s :: ·)

end

/-- The control record: the set header fields and the creation stamp. -/
def controlRecord (d : Document) : WireValues :=
  (d.header.entries.map fun (f, value) => (f.controlName, value)) ++
    [(creationDateControl, d.creation.date.compact), (creationTimeControl, d.creation.time.compact)]

def ofDocument (d : Document) : Except ConnectorError NativeDocument :=
  (ofSegment d.tree).map fun root => ⟨d.key, controlRecord d, root⟩

/-- All documents of a list, in order. -/
def ofBatch (b : Batch) : Except ConnectorError (List NativeDocument) := b.documents.mapM ofDocument

/-! ## Parameter sets -/

/-- What the slots of a record come to: nested records and tables by name. -/
abbrev Parts := List (String × NativeRecord) × List (String × List NativeRecord)

mutual

def ofRecord : Record → Except ConnectorError NativeRecord
  | .mk function shape slots =>
    match encodeEntries (Record.mk function shape slots).entries with
    | .error e => .error e
    | .ok values =>
      (ofSlots (shape.members.map Member.name) slots).map fun (nested, tables) => .mk values nested tables

/-- The parts of the slots, whose members have the given names. -/
def ofSlots (names : List String) : List (Slot Record) → Except ConnectorError Parts
  | [] => .ok ([], [])
  | slot :: rest =>
    match ofSlot (names.headD "") slot with
    | .error e => .error e
    | .ok (nested, tables) =>
      (ofSlots names.tail rest).map fun (ns, ts) => (nested ++ ns, tables ++ ts)

def ofSlot (name : String) : Slot Record → Except ConnectorError Parts
  | .absent => .ok ([], [])
  | .value _ => .ok ([], [])
  | .nested r => (ofRecord r).map fun n => ([(name, n)], [])
  | .table rows =>
    (ofRows rows).map fun natives => ([], if natives.isEmpty then [] else [(name, natives)])

def ofRows : List Record → Except ConnectorError (List NativeRecord)
  | [] => .ok []
  | r :: rest =>
    match ofRecord r with
    | .error e => .error e
    | .ok n => (ofRows rest).map (n :: ·)

end

end DocWire.Native
