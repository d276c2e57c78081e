/-
  DocWire.Schema.Error — why a registry cannot be compiled or a look-up fails.
-/

import DocWire.Text.Quoted

namespace DocWire

/-- What was defined twice, and in which scope. -/
inductive Repeated where
  | shape (name : String)
  | function (name : String)
  /-- A message type, by the id of its key. -/
  | messageType (id : String)
  /-- A segment type; also one that takes the name of the root. -/
  | segment (name : String)
  | member (owner name : String)
  | child (parent name : String)
  | field (segment name : String)
  deriving DecidableEq, Repr

namespace Repeated

def scope : Repeated → String
  | .shape _ => "structure"
  | .function _ => "function"
  | .messageType _ => "IDoc type"
  | .segment _ => "segment"
  | .member _ _ => "member"
  | .child _ _ => "child segment"
  | .field _ _ => "field"

/-- The name, behind the name of its owner where it has one. -/
def label : Repeated → String
  | .shape name | .function name | .messageType name | .segment name => name
  | .member owner name | .child owner name | .field owner name => owner ++ "-" ++ name

end Repeated

/-- What refers to itself. -/
inductive CycleKind where
  | segments
  | structures
  deriving DecidableEq, Repr

def CycleKind.name : CycleKind → String
  | .segments => "segment"
  | .structures => "structure"

inductive RegistryError where
  | unknownMessageType (id : String)
  | unknownFunction (name : String)
  | unknownStructure (name referencedBy : String)
  | unknownSegment (id segmentType parent : String)
  /-- A segment type is reached from the root along chains of two lengths. -/
  | inconsistentLevel (id segmentType : String) (first second : Nat)
  | duplicate (what : Repeated)
  /-- A chain of references that ends where it starts. -/
  | cycle (kind : CycleKind) (chain : List String)
  | invalidKey (id : String)
  | unsupportedFormat (path : String)
  | yaml
  | json
  | io
  deriving DecidableEq, Repr

def RegistryError.message : RegistryError → String
  | .unknownMessageType id => "unknown IDoc type: " ++ id
  | .unknownFunction name => "unknown function: " ++ name
  | .unknownStructure name referencedBy =>
    "unknown structure " ++ Text.quote name ++ " referenced by " ++ Text.quote referencedBy
  | .unknownSegment id segmentType parent =>
    "IDoc " ++ id ++ ": unknown segment type " ++ Text.quote segmentType ++ " referenced by " ++
      Text.quote parent
  | .inconsistentLevel id segmentType first second =>
    "IDoc " ++ id ++ ": segment type " ++ Text.quote segmentType ++ " reached at levels " ++
      toString first ++ " and " ++ toString second
  | .duplicate what => "duplicate " ++ what.scope ++ " " ++ Text.quote what.label
  | .cycle kind chain => kind.name ++ " definitions form a cycle: " ++ " -> ".intercalate chain
  | .invalidKey id => "invalid IDoc type id " ++ Text.quote id ++ ": expected five '/'-separated parts"
  | .unsupportedFormat path => "unsupported definition format: " ++ path
  | .yaml => "YAML error"
  | .json => "JSON error"
  | .io => "I/O error"

end DocWire
