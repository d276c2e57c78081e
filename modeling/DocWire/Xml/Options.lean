/-
  DocWire.Xml.Options — namespaces of encoded messages, and how they are laid out.

  Two namespaces identify a message. One names its kind: `{base}/idoc` for documents, `{base}/rfc` for
  parameter sets. The other lies below it and names the message type or the function:

    {base}/idoc/{repository}/{type}/{extension}/{system}/{application}
    {base}/rfc/{function}

  Parts are in their markup form, so the message type can be recovered from the URI alone.
-/

import DocWire.Schema.Key
import DocWire.Data.Source
import DocWire.Number.Integer

namespace DocWire

structure Options where
  /-- What all generated namespaces start with; slashes at its end do not count. -/
  base : String := "http://schemas.bizdoc.org"
  /-- Spaces for each level; 0 writes everything on one line. -/
  indent : Nat := 2
  declaration : Bool := true
  deriving DecidableEq, Repr

namespace Options

/-- The prefix of the namespace of documents. -/
def idocPrefix : String := "idoc"

/-- The prefix of the namespace of parameter sets. -/
def rfcPrefix : String := "rfc"

/-- The base without slashes at its end. -/
def trimmedBase (o : Options) : String :=
  String.ofList (o.base.toList.reverse.dropWhile (· == '/')).reverse

def idocNamespace (o : Options) : String := o.trimmedBase ++ "/" ++ idocPrefix

def rfcNamespace (o : Options) : String := o.trimmedBase ++ "/" ++ rfcPrefix

/-- The namespace of a message type. -/
def messageNamespace (o : Options) (key : TypeKey) : String := o.idocNamespace ++ "/" ++ key.id

/-- The namespace of a function. -/
def functionNamespace (o : Options) (function : String) : String :=
  o.rfcNamespace ++ "/" ++ Name.escape function

/-- What stands behind a namespace and a slash. -/
def below? (ns uri : String) : Option String :=
  let start := (ns ++ "/").toList
  if start.isPrefixOf uri.toList then some (String.ofList (uri.toList.drop start.length)) else none

/-- The message-type id in the namespace of a message type. -/
def messageId? (o : Options) (uri : String) : Option String := below? o.idocNamespace uri

/-- The function in the namespace of a function. -/
def functionName? (o : Options) (uri : String) : Option String :=
  (below? o.rfcNamespace uri).bind fun escaped =>
    if escaped.isEmpty || escaped.toList.contains '/' then none else some (Name.unescape escaped)

/-- Reads options from a record; what it leaves out has its default. -/
def ofNode? (node : Node) : Option Options := do
  let m ← Node.members? ["namespace_base", "indent", "xml_declaration"] node
  let standard : Options := {}
  return {
    base := ← m.get "namespace_base" standard.base Node.text?
    indent := ← m.get "indent" standard.indent (Node.natural? 64)
    declaration := ← m.get "xml_declaration" standard.declaration Node.bool? }

def toNode (o : Options) : Node :=
  .record [("namespace_base", .text o.base), ("indent", .natural o.indent),
    ("xml_declaration", .bool o.declaration)]

end Options

/-! ## Prefixes of message namespaces -/

def isAsciiLetter (c : Char) : Bool := ('a' ≤ c && c ≤ 'z') || ('A' ≤ c && c ≤ 'Z')

/-- The characters that a prefix may hold. -/
def isPrefixChar (c : Char) : Bool :=
  isAsciiLetter c || Number.isDigit c || c == '_' || c == '.' || c == '-'

/-- The characters that a prefix may start with. -/
def isPrefixStart (c : Char) : Bool := isAsciiLetter c || c == '_'

/-- Whether a name starts with the three letters that are reserved, in any case. -/
def startsReserved (name : List Char) : Bool := (name.take 3).map Char.toLower == ['x', 'm', 'l']

/-- The prefix for a message type or a function: its name in markup form, every other character replaced
by an underscore, and an underscore in front where it would otherwise be no prefix or one that is taken. -/
def messagePrefix (name : String) : String :=
  let escaped := (Name.escapeChars name.toList).map fun c => if isPrefixChar c then c else '_'
  let startsWell := match escaped with
    | c :: _ => isPrefixStart c
    | [] => false
  let taken := escaped == Options.idocPrefix.toList || escaped == Options.rfcPrefix.toList
  String.ofList (if !startsWell || startsReserved escaped || taken then '_' :: escaped else escaped)

end DocWire
