/-
  DocWire.Schema.Field — the declaration of one scalar field, and of the members of a structure.
-/

import DocWire.Field.Coercion
import DocWire.Name

namespace DocWire

structure FieldDecl where
  /-- Local or `/NS/LOCAL`. -/
  name : String
  type : DataType
  /-- Length on the wire; 0 is unbounded. -/
  length : Nat := 0
  byteLength : Nat := 0
  /-- Place in the record of the segment, in bytes. -/
  offset : Nat := 0
  outputLength : Nat := 0
  decimals : Nat := 0
  description : String := ""
  domainName : String := ""
  checkTable : String := ""
  /-- The values that the field may have; none given allows all. -/
  values : List String := []
  isoCode : Bool := false
  deriving DecidableEq, Repr

namespace FieldDecl

/-- What coercion needs to know of the field. -/
def format (f : FieldDecl) : Format := ⟨f.type, f.length, f.decimals⟩

/-- Whether a wire string is among the values that the field may have. -/
def allows (f : FieldDecl) (wire : String) : Bool := f.values.isEmpty || f.values.contains wire

end FieldDecl

/-- A member of a structure. `σ` is how a structure is given: by the name of its definition, or by its
shape. -/
inductive Member (σ : Type) where
  | field (decl : FieldDecl)
  | nested (name description : String) (shape : σ)
  | table (name description : String) (row : σ)
  deriving DecidableEq, Repr

namespace Member

def name : Member σ → String
  | .field decl => decl.name
  | .nested name _ _ => name
  | .table name _ _ => name

/-- The structure that a member refers to. -/
def reference? : Member σ → Option σ
  | .field _ => none
  | .nested _ _ shape => some shape
  | .table _ _ row => some row

def field? : Member σ → Option FieldDecl
  | .field decl => some decl
  | _ => none

end Member

/-- The place of the declared name that a requested one means, within a message of namespace `own`. -/
def declaredIndex? (own : Option String) (declared : List String) (requested : String) : Option Nat :=
  (Name.resolve own declared requested).bind fun name => declared.findIdx? (· == name)

end DocWire
