/-
  DocWire.Connector.Native — documents and parameter sets as a connector holds them.

  On this side there are wire strings only: values by declared name, segments in a tree, structures and
  tables by name. Nothing is checked against a schema.
-/

import DocWire.Document.Error
import DocWire.Schema.Key

namespace DocWire

/-- Wire strings by name. -/
abbrev WireValues := List (String × String)

inductive NativeSegment where
  | mk (type : String) (values : WireValues) (children : List NativeSegment)
  deriving Inhabited, Repr

namespace NativeSegment

def type : NativeSegment → String
  | .mk type _ _ => type

def values : NativeSegment → WireValues
  | .mk _ values _ => values

def children : NativeSegment → List NativeSegment
  | .mk _ _ children => children

end NativeSegment

/-- A control record by control names, and the tree of segments. -/
structure NativeDocument where
  key : TypeKey
  header : WireValues
  root : NativeSegment
  deriving Repr

inductive NativeRecord where
  | mk (values : WireValues) (nested : List (String × NativeRecord)) (tables : List (String × List NativeRecord))
  deriving Inhabited, Repr

namespace NativeRecord

def empty : NativeRecord := .mk [] [] []

def values : NativeRecord → WireValues
  | .mk values _ _ => values

def nested : NativeRecord → List (String × NativeRecord)
  | .mk _ nested _ => nested

def tables : NativeRecord → List (String × List NativeRecord)
  | .mk _ _ tables => tables

/-- The rows of a table; none where there is no such table. -/
def rows (r : NativeRecord) (table : String) : List NativeRecord := (r.tables.lookup table).getD []

end NativeRecord

/-! ## Errors -/

/-- A failure of the connector itself. -/
inductive NativeError where
  | emptyQueueName
  | unavailable (function : String)
  /-- A failure that a function reports, in its own words. -/
  | reported (text : String)
  deriving DecidableEq, Repr

def NativeError.message : NativeError → String
  | .emptyQueueName => "queue name must not be empty"
  | .unavailable function => "function " ++ function ++ " is not available"
  | .reported text => text

inductive ConnectorError where
  /-- A field's value has no wire string, or its wire string no value; `text` is the one there is. -/
  | field (name : String) (type : DataType) (text : String) (source : CoercionError)
  | model (e : ModelError)
  | native (e : NativeError)
  /-- A record that is no request was to be executed. -/
  | notARequest (function actual : String)
  deriving DecidableEq, Repr

def ConnectorError.message : ConnectorError → String
  | .field name type text source =>
    "field " ++ name ++ " (" ++ type.tag ++ "): cannot convert " ++ Text.quote text ++ ": " ++ source.message
  | .model e => "model: " ++ e.message
  | .native e => "connector: " ++ e.message
  | .notARequest function actual =>
    "function " ++ function ++ ": expected a request structure, got " ++ actual

end DocWire
