/-
  DocWire.Document.Acceptance — what a declared field accepts.

  A field accepts the values of the kind that its type takes. Whether such a value can also be represented
  on the wire is judged when the message is validated or written, except where the value comes from the
  wire in the first place.
-/

import DocWire.Document.Error
import DocWire.Schema.Field

namespace DocWire.FieldDecl

/-- A value for the field: one of the kind that its type takes. -/
def accept (decl : FieldDecl) (value : Value) : Except ModelError (Option Value) :=
  if value.kind = decl.type.kind then .ok (some value)
  else .error (.typeMismatch decl.name decl.type decl.type.kind value.kind)

/-- A value for the field, read from its wire string; `none` leaves the field unset. -/
def acceptWire (decl : FieldDecl) (text : String) : Except ModelError (Option Value) :=
  (Coercion.decodeWire decl.format text).mapError (.coercion decl.name)

end DocWire.FieldDecl
