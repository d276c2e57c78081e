/-
  DocWire.Parameters.Record — the parameter sets of functions.

  A record holds the request or response parameters of a function, or a structure within them. It has one
  slot for every member of its shape: a value, a nested record, or the rows of a table, each of which may
  be absent. Nested records and tables are made when they are first opened and stay the same afterwards;
  rows are only appended.
-/

import DocWire.Document.Acceptance
import DocWire.Schema.Shape

namespace DocWire

/-- The content of one member; `ρ` is the type of nested records and rows. -/
inductive Slot (ρ : Type) where
  | absent
  | value (v : Value)
  | nested (record : ρ)
  | table (rows : List ρ)

inductive Record where
  | mk (function : Function) (shape : Shape) (slots : List (Slot Record))

namespace Record

def function : Record → Function
  | .mk function _ _ => function

def shape : Record → Shape
  | .mk _ shape _ => shape

def slots : Record → List (Slot Record)
  | .mk _ _ slots => slots

/-- `Request` or `Response` at the top, the name of the structure below. -/
def name (r : Record) : String := r.shape.name

/-- The namespace that local names stand in. -/
def ns (r : Record) : Option String := r.function.ns

/-- A record in which every member is absent. -/
def blank (function : Function) (shape : Shape) : Record :=
  .mk function shape (shape.members.map fun _ => .absent)

/-- The empty request of a function. -/
def request (f : Function) : Record := blank f f.request

/-- The empty response of a function. -/
def response (f : Function) : Record := blank f f.response

def putSlot (r : Record) (i : Nat) (slot : Slot Record) : Record :=
  .mk r.function r.shape (r.slots.set i slot)

def slotAt (r : Record) (i : Nat) : Slot Record := (r.slots[i]?).getD .absent

/-! ## Members -/

/-- The member that a name means, with its place. -/
def resolve (r : Record) (name : String) : Except ModelError (Nat × Member Shape) :=
  match r.shape.memberIndex? r.ns name with
  | none => .error (.unknownMember r.name name)
  | some i =>
    match r.shape.members[i]? with
    | none => .error (.unknownMember r.name name)
    | some m => .ok (i, m)

/-- The scalar member that a name means. -/
def resolveField (r : Record) (name : String) : Except ModelError (Nat × FieldDecl) :=
  match r.resolve name with
  | .error e => .error e
  | .ok (i, .field decl) => .ok (i, decl)
  | .ok (_, m) => .error (.wrongMemberKind m.name .field)

/-- The nested structure that a name means. -/
def resolveNested (r : Record) (name : String) : Except ModelError (Nat × Shape) :=
  match r.resolve name with
  | .error e => .error e
  | .ok (i, .nested _ _ shape) => .ok (i, shape)
  | .ok (_, m) => .error (.wrongMemberKind m.name .nested)

/-- The table that a name means, with the shape of its rows. -/
def resolveTable (r : Record) (name : String) : Except ModelError (Nat × Shape) :=
  match r.resolve name with
  | .error e => .error e
  | .ok (i, .table _ _ row) => .ok (i, row)
  | .ok (_, m) => .error (.wrongMemberKind m.name .table)

/-! ## Reading -/

/-- The content of any member. -/
def get (r : Record) (name : String) : Except ModelError (Slot Record) :=
  (r.resolve name).map fun (i, _) => r.slotAt i

/-- The value of a scalar member. -/
def value (r : Record) (name : String) : Except ModelError (Option Value) :=
  (r.resolveField name).map fun (i, _) =>
    match r.slotAt i with
    | .value v => some v
    | _ => none

/-- A nested record, if it has been made. -/
def nested (r : Record) (name : String) : Except ModelError (Option Record) :=
  (r.resolveNested name).map fun (i, _) =>
    match r.slotAt i with
    | .nested inner => some inner
    | _ => none

/-- The shape of a table's rows, and the rows, if the table has been made. -/
def table (r : Record) (name : String) : Except ModelError (Shape × Option (List Record)) :=
  (r.resolveTable name).map fun (i, row) =>
    match r.slotAt i with
    | .table rows => (row, some rows)
    | _ => (row, none)

/-- The value of a slot with its declaration, when the member is a field that is set. -/
def entry? : Member Shape × Slot Record → Option (FieldDecl × Value)
  | (.field decl, .value v) => some (decl, v)
  | _ => none

/-- The set scalar members with their declarations, in the order of declaration. -/
def entries (r : Record) : List (FieldDecl × Value) := (r.shape.members.zip r.slots).filterMap entry?

def fieldCount (r : Record) : Nat :=
  (r.slots.filter fun | .value _ => true | _ => false).length

/-! ## Writing -/

/-- What a scalar member becomes: the change may depend on its declaration, and may be refused. -/
def changeField (r : Record) (name : String) (change : FieldDecl → Except ModelError (Option Value)) :
    Except ModelError Record :=
  match r.resolveField name with
  | .error e => .error e
  | .ok (i, decl) =>
    match change decl with
    | .error e => .error e
    | .ok (some v) => .ok (r.putSlot i (.value v))
    | .ok none => .ok (r.putSlot i .absent)

def set (r : Record) (name : String) (value : Value) : Except ModelError Record :=
  r.changeField name (·.accept value)

/-- Sets a scalar member from its wire string. -/
def setWire (r : Record) (name : String) (text : String) : Except ModelError Record :=
  r.changeField name (·.acceptWire text)

def unset (r : Record) (name : String) : Except ModelError Record :=
  r.changeField name fun _ => .ok none

/-- The nested record that a name means, made if it is absent, with its place. -/
def openNested (r : Record) (name : String) : Except ModelError (Nat × Record) :=
  (r.resolveNested name).map fun (i, shape) =>
    match r.slotAt i with
    | .nested inner => (i, inner)
    | _ => (i, blank r.function shape)

/-- The rows of the table that a name means, none if it is absent, with its place and the shape of its
rows. -/
def openTable (r : Record) (name : String) : Except ModelError (Nat × Shape × List Record) :=
  (r.resolveTable name).map fun (i, row) =>
    match r.slotAt i with
    | .table rows => (i, row, rows)
    | _ => (i, row, [])

/-- Makes a nested record where it is absent; gives the whole and the nested record. -/
def makeNested (r : Record) (name : String) : Except ModelError (Record × Record) :=
  (r.openNested name).map fun (i, inner) => (r.putSlot i (.nested inner), inner)

/-- Makes a table where it is absent; gives the whole, the shape of the rows and the rows. -/
def makeTable (r : Record) (name : String) : Except ModelError (Record × Shape × List Record) :=
  (r.openTable name).map fun (i, row, rows) => (r.putSlot i (.table rows), row, rows)

/-- Appends an empty row to a table; gives the whole, the shape of the rows and the rows. -/
def addRow (r : Record) (name : String) : Except ModelError (Record × Shape × List Record) :=
  (r.openTable name).map fun (i, row, rows) =>
    let rows := rows ++ [blank r.function row]
    (r.putSlot i (.table rows), row, rows)

/-! ## Places within a record -/

/-- A step into a record. -/
inductive Step where
  | nested (name : String)
  | row (table : String) (index : Nat)
  deriving DecidableEq, Repr

/-- Why a path leads nowhere. -/
inductive PathError where
  | model (e : ModelError)
  /-- The nested record has not been made. -/
  | noStructure
  | noRow
  deriving DecidableEq, Repr

/-- The record at the end of a path; nothing is made on the way. -/
def atPath (r : Record) : List Step → Except PathError Record
  | [] => .ok r
  | .nested name :: rest =>
    match r.nested name with
    | .error e => .error (.model e)
    | .ok none => .error .noStructure
    | .ok (some inner) => inner.atPath rest
  | .row name index :: rest =>
    match r.table name with
    | .error e => .error (.model e)
    | .ok (_, rows) =>
      match (rows.getD [])[index]? with
      | none => .error .noRow
      | some row => row.atPath rest

/-- Changes the record at the end of a path. Nested records and tables are made on the way, and stay made
when the path turns out to lead nowhere; rows are not. -/
def editAt {α : Type} (change : Record → Record × α) (r : Record) : List Step → Record × Except PathError α
  | [] => let (r, result) := change r; (r, .ok result)
  | .nested name :: rest =>
    match r.openNested name with
    | .error e => (r, .error (.model e))
    | .ok (i, inner) =>
      let (inner, result) := inner.editAt change rest
      (r.putSlot i (.nested inner), result)
  | .row name index :: rest =>
    match r.openTable name with
    | .error e => (r, .error (.model e))
    | .ok (i, _, rows) =>
      match rows[index]? with
      | none => (r.putSlot i (.table rows), .error .noRow)
      | some row =>
        let (row, result) := row.editAt change rest
        (r.putSlot i (.table (rows.set index row)), result)

/-! ## Equality -/

mutual

/-- Whether two records belong to one function, have one shape, and hold the same in every slot; decimals
are compared as numbers. -/
def same : Record → Record → Bool
  | .mk f s slots, .mk f' s' slots' => f.name == f'.name && s == s' && sameSlots slots slots'

def sameSlots : List (Slot Record) → List (Slot Record) → Bool
  | [], [] => true
  | x :: xs, y :: ys => sameSlot x y && sameSlots xs ys
  | _, _ => false

def sameSlot : Slot Record → Slot Record → Bool
  | .absent, .absent => true
  | .value v, .value w => v.same w
  | .nested r, .nested r' => same r r'
  | .table rows, .table rows' => sameRows rows rows'
  | _, _ => false

def sameRows : List Record → List Record → Bool
  | [], [] => true
  | r :: rs, r' :: rs' => same r r' && sameRows rs rs'
  | _, _ => false

end

end Record

end DocWire
