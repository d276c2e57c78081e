/-
  DocWire.Schema.Definition — metadata as it is authored.

  A definition lists message types, structures and functions; segment types and structures are referred
  to by name. It is checked and resolved where a registry is compiled from it.
-/

import DocWire.Schema.Key
import DocWire.Schema.Field

namespace DocWire

/-- A child type that is permitted under a segment. -/
structure ChildDef where
  segmentType : String
  /-- Stands for the description of the segment type when it is not empty. -/
  description : String := ""
  minOccurrence : Nat := 0
  maxOccurrence : Nat := 1
  mandatory : Bool := false
  qualified : Bool := false
  locked : Bool := false
  deriving DecidableEq, Repr

structure SegmentDef where
  segmentType : String
  description : String := ""
  fields : List FieldDecl := []
  children : List ChildDef := []
  deriving DecidableEq, Repr

/-- A message type: what stands under its root, and its segment types. -/
structure MessageDef where
  key : TypeKey
  /-- The namespace of the message, if it is not the one of its basic type. -/
  ns : Option String := none
  description : String := ""
  root : List ChildDef := []
  segments : List SegmentDef := []
  deriving DecidableEq, Repr

structure StructureDef where
  name : String
  description : String := ""
  members : List (Member String) := []
  deriving DecidableEq, Repr

structure FunctionDef where
  name : String
  /-- The namespace of the function, if it is not the one of its name. -/
  ns : Option String := none
  description : String := ""
  imports : List (Member String) := []
  exports : List (Member String) := []
  changing : List (Member String) := []
  tables : List (Member String) := []
  deriving DecidableEq, Repr

namespace FunctionDef

/-- The parameters of a call. -/
def requestMembers (f : FunctionDef) : List (Member String) := f.imports ++ f.changing ++ f.tables

/-- The parameters of the answer. -/
def responseMembers (f : FunctionDef) : List (Member String) := f.exports ++ f.changing ++ f.tables

end FunctionDef

structure Definition where
  messageTypes : List MessageDef := []
  structures : List StructureDef := []
  functions : List FunctionDef := []
  deriving DecidableEq, Repr

end DocWire
