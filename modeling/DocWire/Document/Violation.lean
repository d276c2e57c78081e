/-
  DocWire.Document.Violation — what is wrong with a finished message.

  Types and maximum occurrences are enforced while a message is built. What only a finished message can
  be judged by is collected on demand: values outside a field's enumeration, values that the field's
  length or precision cannot represent, and children that are missing.
-/

import DocWire.Schema.Field

namespace DocWire

inductive ViolationCause where
  | notAllowed (field wire : String) (values : List String)
  | notRepresentable (field : String) (source : CoercionError)
  | tooFew (child : String) (count required : Nat)
  | tooMany (child : String) (count allowed : Nat)
  deriving DecidableEq, Repr

def ViolationCause.message : ViolationCause → String
  | .notAllowed field wire values =>
    "field " ++ field ++ ": " ++ Text.quote wire ++ " is not one of " ++ Text.quoteList values
  | .notRepresentable field source => "field " ++ field ++ ": " ++ source.message
  | .tooFew child count required =>
    "child " ++ child ++ " occurs " ++ toString count ++ " times, at least " ++ toString required ++
      " required"
  | .tooMany child count allowed =>
    "child " ++ child ++ " occurs " ++ toString count ++ " times, at most " ++ toString allowed ++ " allowed"

/-- A violation with the path of the segment or structure that it is found in. -/
structure Violation where
  path : String
  cause : ViolationCause
  deriving DecidableEq, Repr

namespace Violation

def text (v : Violation) : String := "  " ++ v.path ++ ": " ++ v.cause.message

/-- One line for each violation. -/
def report (violations : List Violation) : String := "\n".intercalate (violations.map text)

end Violation

/-- What is wrong with the value of a field. -/
def fieldCause? (decl : FieldDecl) (value : Value) : Option ViolationCause :=
  match Coercion.encode decl.format value with
  | .ok wire => if decl.allows wire then none else some (.notAllowed decl.name wire decl.values)
  | .error e => some (.notRepresentable decl.name e)

/-- What is wrong with the values of a segment or structure at `path`. -/
def fieldViolations (path : String) (entries : List (FieldDecl × Value)) : List Violation :=
  entries.filterMap fun (decl, value) => (fieldCause? decl value).map fun cause => ⟨path, cause⟩

end DocWire
