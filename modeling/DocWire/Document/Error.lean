/-
  DocWire.Document.Error — why documents and parameter sets refuse an operation.
-/

import DocWire.Field.Coercion

namespace DocWire

/-- The three forms of a structure's members. -/
inductive MemberKind where
  | field
  | nested
  | table
  deriving DecidableEq, Repr

def MemberKind.name : MemberKind → String
  | .field => "field"
  | .nested => "structure"
  | .table => "table"

inductive ModelError where
  /-- There is no segment with that number. -/
  | noSegment (id : Nat)
  | unknownField (segment field : String)
  | unknownChild (parent segmentType : String)
  | unknownMember (shape member : String)
  | wrongMemberKind (member : String) (expected : MemberKind)
  | typeMismatch (field : String) (type : DataType) (expected actual : ValueKind)
  | occurrenceExceeded (parent segmentType : String) (max : Nat)
  | coercion (field : String) (source : CoercionError)
  /-- A document was added to a list of another message type; both by their ids. -/
  | schemaMismatch (expected actual : String)
  deriving DecidableEq, Repr

def ModelError.message : ModelError → String
  | .noSegment id => "no segment " ++ toString id
  | .unknownField segment field => "segment " ++ segment ++ ": unknown field " ++ Text.quote field
  | .unknownChild parent segmentType =>
    "segment " ++ parent ++ ": unknown child segment type " ++ Text.quote segmentType
  | .unknownMember shape member => "structure " ++ shape ++ ": unknown member " ++ Text.quote member
  | .wrongMemberKind member expected => "member " ++ Text.quote member ++ " is not a " ++ expected.name
  | .typeMismatch field type expected actual =>
    "field " ++ field ++ ": " ++ type.tag ++ " expects a " ++ expected.name ++ " value, got " ++ actual.name
  | .occurrenceExceeded parent segmentType max =>
    "segment " ++ parent ++ ": child " ++ segmentType ++ " may occur at most " ++ toString max ++ " times"
  | .coercion field source => "field " ++ field ++ ": " ++ source.message
  | .schemaMismatch expected actual =>
    "document of type " ++ actual ++ " does not belong to a list of " ++ expected

end DocWire
