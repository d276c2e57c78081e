/-
  DocWire.Markup.Event — tags with their names resolved and their order checked.

  A prefix stands for what the innermost enclosing element declares it to be. Declarations count in the
  whole tag in which they stand. `xml` and `xmlns` are bound from the start and cannot be bound otherwise.
  Within a tag, faults come in this order: reserved prefixes, the prefix of the element, then the
  attributes one by one. A closing tag must name the innermost open element.
-/

import DocWire.Markup.Element
import DocWire.Markup.Reference
import DocWire.Markup.Tag

namespace DocWire.Markup

/-- What the reader of a text meets, in order. -/
inductive Event where
  | opened (head : Head)
  /-- An element without content. -/
  | empty (head : Head)
  | closed
  | text (raw : String)
  | characters
  | fault (m : Malformed)
  deriving DecidableEq, Repr

/-! ## Names -/

/-- The prefix of a name, if it has one, and the rest. -/
def splitPrefix (name : String) : Option String × String :=
  let s := name.toList
  match s.dropWhile (· != ':') with
  | _ :: localPart => (some (String.ofList (s.takeWhile (· != ':'))), String.ofList localPart)
  | [] => (none, name)

/-- The prefix that an attribute declares; the empty one for the default namespace. -/
def declaredPrefix? (name : String) : Option String :=
  if name == "xmlns" then some ""
  else match splitPrefix name with
    | (some "xmlns", declared) => some declared
    | _ => none

/-- What prefixes are bound to, the innermost declaration first. -/
abbrev Scope := List (String × String)

def xmlUri : String := "http://www.w3.org/XML/1998/namespace"

def xmlnsUri : String := "http://www.w3.org/2000/xmlns/"

def outermost : Scope := [("xmlns", xmlnsUri), ("xml", xmlUri)]

/-- The scope within a tag. The default namespace may be anything; the reserved prefixes and what they are
bound to go together. -/
def declare (scope : Scope) : List (String × String) → Except TagFault Scope
  | [] => .ok scope
  | (name, uri) :: rest =>
    match declaredPrefix? name with
    | none => declare scope rest
    | some declared =>
      if name == "xmlns" then declare ((declared, uri) :: scope) rest
      else if declared == "xml" then
        if uri == xmlUri then declare scope rest else .error (.reservedPrefix declared)
      else if declared == "xmlns" || uri == xmlUri || uri == xmlnsUri then .error (.reservedPrefix declared)
      else declare ((declared, uri) :: scope) rest

/-- What a written prefix stands for; one bound to nothing is undeclared. -/
def lookupPrefix (scope : Scope) (name : String) : Except Malformed (Option String) :=
  let bound := if name.isEmpty then none else scope.lookup name
  match bound with
  | some uri => if uri.isEmpty then .error (.undeclaredPrefix name) else .ok (some uri)
  | none => .error (.undeclaredPrefix name)

/-- The default namespace. -/
def defaultNamespace (scope : Scope) : Option String :=
  match scope.lookup "" with
  | some uri => if uri.isEmpty then none else some uri
  | none => none

/-- The namespace of an element's name, and its local part. -/
def resolveElement (scope : Scope) (name : String) : Except Malformed (Option String × String) :=
  match splitPrefix name with
  | (none, localPart) => .ok (defaultNamespace scope, localPart)
  | (some p, localPart) => (lookupPrefix scope p).map fun ns => (ns, localPart)

/-- An attribute without a prefix is in no namespace. -/
def resolveAttribute (scope : Scope) (name value : String) : Except Malformed Attribute :=
  match splitPrefix name with
  | (none, localPart) => .ok ⟨none, localPart, value⟩
  | (some p, localPart) => (lookupPrefix scope p).map fun ns => ⟨ns, localPart, value⟩

/-! ## Tags -/

/-- Adds the written attributes to an element, one after the other. -/
def addAttributes (scope : Scope) (head : Head) (seen : List String) :
    List (String × String) → Except Malformed Head
  | [] => .ok head
  | (name, raw) :: rest =>
    if seen.contains name then .error (.tag (.repeatedAttribute name))
    else
      match unescape raw with
      | .error fault => .error (.tag fault)
      | .ok value =>
        match declaredPrefix? name with
        | some declared =>
          addAttributes scope { head with declarations := head.declarations ++ [(declared, value)] }
            (name :: seen) rest
        | none =>
          match resolveAttribute scope name value with
          | .error m => .error m
          | .ok a =>
            addAttributes scope { head with attributes := head.attributes ++ [a] } (name :: seen) rest

/-- The element of an opening tag, and the scope within it. -/
def resolveOpening (scope : Scope) (tag : Opening) : Except Malformed (Head × Scope) :=
  match declare scope tag.attributes with
  | .error fault => .error (.tag fault)
  | .ok inner =>
    match resolveElement inner tag.name with
    | .error m => .error m
    | .ok (ns, name) =>
      match addAttributes inner ⟨ns, name, [], []⟩ [] tag.attributes with
      | .error m => .error m
      | .ok head => if tag.complete then .ok (head, inner) else .error (.tag .attributeForm)

/-- The events of tags. `openTags` holds the written name and the scope of every open element, the innermost
first. Nothing comes after a fault. -/
def eventsFrom (openTags : List (String × Scope)) : List Tag → List Event
  | [] => []
  | tag :: rest =>
    let scope := match openTags with
      | (_, scope) :: _ => scope
      | [] => outermost
    match tag with
    | .opening t =>
      match resolveOpening scope t with
      | .error m => [.fault m]
      | .ok (head, inner) => .opened head :: eventsFrom ((t.name, inner) :: openTags) rest
    | .empty t =>
      match resolveOpening scope t with
      | .error m => [.fault m]
      | .ok (head, _) => .empty head :: eventsFrom openTags rest
    | .closing name =>
      match openTags with
      | [] => [.fault (.tag (.unmatchedEnd name))]
      | (expected, _) :: outer =>
        if name == expected then .closed :: eventsFrom outer rest
        else [.fault (.tag (.mismatchedEnd expected name))]
    | .text raw => .text raw :: eventsFrom openTags rest
    | .characters => .characters :: eventsFrom openTags rest
    | .fault fault => [.fault (.tag fault)]

def events (tags : List Tag) : List Event := eventsFrom [] tags

end DocWire.Markup
