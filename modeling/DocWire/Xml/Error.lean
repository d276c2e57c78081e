/-
  DocWire.Xml.Error — why a message cannot be written as or read from XML.
-/

import DocWire.Document.Error
import DocWire.Markup.Fault
import DocWire.Schema.Error

namespace DocWire

/-- The two kinds of messages. -/
inductive MessageKind where
  | document
  | parameters
  deriving DecidableEq, Repr

def MessageKind.name : MessageKind → String
  | .document => "idoc"
  | .parameters => "rfc"

inductive XmlError where
  | malformed (m : Markup.Malformed)
  | unexpectedElement (expected found : String)
  | unexpectedAttribute (element attr : String)
  /-- No declared namespace lies below the base. -/
  | missingNamespace (kind : MessageKind) (base : String)
  | registry (e : RegistryError)
  | model (e : ModelError)
  /-- The value of a field has no wire string. -/
  | encode (field : String) (source : CoercionError)
  deriving DecidableEq, Repr

namespace XmlError

def message : XmlError → String
  | .malformed m => "malformed XML: " ++ m.message
  | .unexpectedElement expected found =>
    "unexpected element " ++ Text.quote found ++ ", expected " ++ expected
  | .unexpectedAttribute element attr =>
    "element " ++ Text.quote element ++ ": unexpected attribute " ++ Text.quote attr
  | .missingNamespace kind base => "no " ++ kind.name ++ " namespace declared under " ++ base
  | .registry e => "registry: " ++ e.message
  | .model e => "model: " ++ e.message
  | .encode field source => "field " ++ field ++ ": " ++ source.message

/-- Whether a value is at fault, and not the form of the message. -/
def isCoercion : XmlError → Bool
  | .encode _ _ => true
  | .model (.coercion _ _) => true
  | _ => false

end XmlError

end DocWire
