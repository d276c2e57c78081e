/-
  DocWire.Connector.Consume — documents and parameter sets made from native objects.

  The declared members are walked, and the wire string of each, where there is one, is decoded. A wire
  string that leaves its field unset and one that is missing come to the same. What the schema does not
  declare is not looked at, except for segments, whose types must be declared.
-/

import DocWire.Connector.Native
import DocWire.Document.Basic
import DocWire.Parameters.Record

namespace DocWire.Native

/-- The value of a declared field. -/
def decodeField (values : WireValues) (decl : FieldDecl) : Except ConnectorError (Option Value) :=
  match values.lookup decl.name with
  | none => .ok none
  | some text => (Coercion.decodeWire decl.format text).mapError (.field decl.name decl.type text)

/-! ## Documents -/

/-- The header with every field that the control record holds set from it. -/
def readHeader (control : WireValues) (h : Header) : Header :=
  HeaderField.all.foldl (fun h f =>
    match control.lookup f.controlName with
    | some value => h.set f value
    | none => h) h

mutual

/-- Fills the new segment `id` of a document. -/
def readSegment (d : Document) (id : Nat) : NativeSegment → Except ConnectorError Document
  | .mk _ values children =>
    match d.segment? id with
    | none => .error (.model (.noSegment id))
    | some s =>
      match s.type.fields.mapM (decodeField values) with
      | .error e => .error e
      | .ok fields => readSegments (d.putFields id fields) id children

/-- Adds segments under the segment `id`. -/
def readSegments (d : Document) (id : Nat) : List NativeSegment → Except ConnectorError Document
  | [] => .ok d
  | n :: rest =>
    match d.addChild id n.type with
    | .error e => .error (.model e)
    | .ok (d, child) =>
      match readSegment d child n with
      | .error e => .error e
      | .ok d => readSegments d id rest

end

/-- The document of a message type that a native document holds. -/
def readDocument (schema : MessageType) (creation : Stamp) (n : NativeDocument) :
    Except ConnectorError Document :=
  let d := Document.new schema creation
  readSegment { d with header := readHeader n.header d.header } Document.rootId n.root

/-! ## Parameter sets -/

/-- A record as far as it was filled, and what stopped the filling. -/
abbrev Filled := Record × Option ConnectorError

mutual

/-- Fills a record of a shape. -/
def fill : Shape → Record → NativeRecord → Filled
  | .mk _ _ members, target, native => fillMembers 0 members target native

/-- Fills the slots from `i` on, for the given members. -/
def fillMembers (i : Nat) : List (Member Shape) → Record → NativeRecord → Filled
  | [], target, _ => (target, none)
  | m :: rest, target, native =>
    match fillMember i m target native with
    | (target, some e) => (target, some e)
    | (target, none) => fillMembers (i + 1) rest target native

/-- Fills the slot `i`: a table is always made, a nested record where the native side has one. -/
def fillMember (i : Nat) : Member Shape → Record → NativeRecord → Filled
  | .field decl, target, native =>
    match decodeField native.values decl with
    | .error e => (target, some e)
    | .ok (some v) => (target.putSlot i (.value v), none)
    | .ok none => (target, none)
  | .nested name _ shape, target, native =>
    match native.nested.lookup name with
    | none => (target, none)
    | some inner =>
      let start := match target.slotAt i with
        | .nested r => r
        | _ => .blank target.function shape
      let (r, e) := fill shape start inner
      (target.putSlot i (.nested r), e)
  | .table name _ row, target, native =>
    let start := match target.slotAt i with
      | .table rows => rows
      | _ => []
    let fillRow : List Record × Option ConnectorError → NativeRecord → List Record × Option ConnectorError
      | (rows, some e), _ => (rows, some e)
      | (rows, none), n =>
        let (r, e) := fill row (.blank target.function row) n
        (rows ++ [r], e)
    let (rows, e) := (native.rows name).foldl fillRow (start, none)
    (target.putSlot i (.table rows), e)

end

/-- Fills a record from a native one. -/
def readRecord (target : Record) (n : NativeRecord) : Filled := fill target.shape target n

end DocWire.Native
