/-
  DocWire.Connector.Port — function calls through any connector.

  A connector is known by what it offers: empty native structures, and the execution of functions on them. A native
  structure is written and read by operations of its own. A write may be refused, in the connector's words; reading
  never fails. A nested structure or a new row is changed by itself, so it is handed out together with what the whole
  becomes when it is put back.

  A call asks nothing of the connector before the record is known to have the name of a request.
-/

import DocWire.Connector.Memory

namespace DocWire

/-- The operations on native structures. -/
structure NativeStructure (ρ : Type) where
  setValue (native : ρ) (field wire : String) : Except NativeError ρ
  /-- A nested structure, created on first use. -/
  openStructure (native : ρ) (name : String) : Except NativeError (ρ × (ρ → ρ))
  appendRow (native : ρ) (table : String) : Except NativeError (ρ × (ρ → ρ))
  value? (native : ρ) (field : String) : Option String
  structure? (native : ρ) (name : String) : Option ρ
  rowCount (native : ρ) (table : String) : Nat
  row? (native : ρ) (table : String) (index : Nat) : Option ρ

namespace NativeStructure

variable {ρ : Type} (ops : NativeStructure ρ)

/-! ## Writing -/

def writeEntries : List (FieldDecl × Value) → ρ → Except ConnectorError ρ
  | [], native => .ok native
  | (decl, value) :: rest, native =>
    match Native.encodeField decl value with
    | .error e => .error e
    | .ok wire =>
      match ops.setValue native decl.name wire with
      | .error e => .error (.native e)
      | .ok native => writeEntries rest native

mutual

/-- Writes a record: its values first, then what the slots hold, in the order of the members. -/
def write : Record → ρ → Except ConnectorError ρ
  | .mk function shape slots, native =>
    match ops.writeEntries (Record.mk function shape slots).entries native with
    | .error e => .error e
    | .ok native => writeSlots (shape.members.map Member.name) slots native

def writeSlots (names : List String) : List (Slot Record) → ρ → Except ConnectorError ρ
  | [], native => .ok native
  | slot :: rest, native =>
    match writeSlot (names.headD "") slot native with
    | .error e => .error e
    | .ok native => writeSlots names.tail rest native

def writeSlot (name : String) : Slot Record → ρ → Except ConnectorError ρ
  | .absent, native => .ok native
  | .value _, native => .ok native
  | .nested r, native =>
    match ops.openStructure native name with
    | .error e => .error (.native e)
    | .ok (inner, putBack) => (write r inner).map putBack
  | .table rows, native => writeRows name rows native

def writeRows (table : String) : List Record → ρ → Except ConnectorError ρ
  | [], native => .ok native
  | r :: rest, native =>
    match ops.appendRow native table with
    | .error e => .error (.native e)
    | .ok (row, putBack) =>
      match write r row with
      | .error e => .error e
      | .ok row => writeRows table rest (putBack row)

end

/-! ## Reading -/

/-- The rows of a table, as far as they are given out. -/
def rows (native : ρ) (table : String) : List ρ :=
  (List.range (ops.rowCount native table)).filterMap (ops.row? native table)

mutual

/-- What a native structure holds under the members of a shape. -/
def view : Shape → ρ → NativeRecord
  | .mk _ _ members, native =>
    let values := members.filterMap fun
      | .field decl => (ops.value? native decl.name).map (decl.name, ·)
      | _ => none
    let (nested, tables) := viewMembers members native
    .mk values nested tables

def viewMembers : List (Member Shape) → ρ → Native.Parts
  | [], _ => ([], [])
  | m :: rest, native =>
    let (nested, tables) := viewMember m native
    let (ns, ts) := viewMembers rest native
    (nested ++ ns, tables ++ ts)

def viewMember : Member Shape → ρ → Native.Parts
  | .field _, _ => ([], [])
  | .nested name _ shape, native =>
    match ops.structure? native name with
    | none => ([], [])
    | some inner => ([(name, view shape inner)], [])
  | .table name _ row, native => ([], [(name, (ops.rows native name).map (view row))])

end

/-- Fills a record from a native structure. -/
def read (target : Record) (native : ρ) : Native.Filled := Native.readRecord target (ops.view target.shape native)

end NativeStructure

/-- A connector that executes functions; `σ` is what it keeps. -/
structure Port (σ ρ : Type) where
  native : NativeStructure ρ
  createRequest (function : String) (s : σ) : Except NativeError ρ × σ
  execute (function : String) (request : ρ) (s : σ) : Except NativeError ρ × σ

namespace Port

variable {σ ρ : Type} (p : Port σ ρ)

/-- The record is written, executed, and the answer read into a new response. -/
def run (request : Record) (s : σ) : Except ConnectorError Record × σ :=
  let f := request.function
  match p.createRequest f.name s with
  | (.error e, s) => (.error (.native e), s)
  | (.ok native, s) =>
    match p.native.write request native with
    | .error e => (.error e, s)
    | .ok native =>
      match p.execute f.name native s with
      | (.error e, s) => (.error (.native e), s)
      | (.ok answer, s) =>
        match p.native.read (.response f) answer with
        | (response, none) => (.ok response, s)
        | (_, some e) => (.error e, s)

/-- Runs a function. -/
def call (request : Record) (s : σ) : Except ConnectorError Record × σ :=
  if request.name != Function.requestName then (.error (.notARequest request.function.name request.name), s)
  else p.run request s

end Port

/-! ## The connector in memory -/

/-- Puts what stands under a name in its place, behind all others where there was nothing. -/
def putNamed {α : Type} (name : String) (a : α) : List (String × α) → List (String × α)
  | [] => [(name, a)]
  | (n, b) :: rest => if n = name then (n, a) :: rest else (n, b) :: putNamed name a rest

def NativeRecord.operations : NativeStructure NativeRecord where
  setValue n field wire := .ok (.mk (putNamed field wire n.values) n.nested n.tables)
  openStructure n name := .ok ((n.nested.lookup name).getD .empty, fun inner =>
    .mk n.values (putNamed name inner n.nested) n.tables)
  appendRow n table := .ok (.empty, fun row =>
    .mk n.values n.nested (putNamed table (n.rows table ++ [row]) n.tables))
  value? n field := n.values.lookup field
  structure? n name := n.nested.lookup name
  rowCount n table := (n.rows table).length
  row? n table index := (n.rows table)[index]?

def Connector.port : Port Connector NativeRecord where
  native := NativeRecord.operations
  createRequest function c := (c.createRequest function, c)
  execute function request c := (c.execute function request, c)

end DocWire
