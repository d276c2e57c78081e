/-
  DocWire.Markup.Element — elements with their namespaces resolved.

  An element holds its namespace declarations and its other attributes apart, each in the order in which
  they stand in the tag. Character data is no part of it.
-/

import DocWire.Markup.Fault

namespace DocWire.Markup

/-- A name with its namespace, as messages show it. -/
def expandedName (ns : Option String) (name : String) : String :=
  match ns with
  | some uri => "\x7b" ++ uri ++ "\x7d" ++ name
  | none => name

structure Attribute where
  ns : Option String
  name : String
  value : String
  deriving DecidableEq, Repr

/-- An element without its children. -/
structure Head where
  ns : Option String
  name : String
  /-- Prefixes and what they are bound to; the default namespace has the empty prefix. -/
  declarations : List (String × String)
  attributes : List Attribute
  deriving DecidableEq, Repr

namespace Head

def isNamed (h : Head) (ns : Option String) (name : String) : Bool := h.ns == ns && h.name == name

def display (h : Head) : String := expandedName h.ns h.name

end Head

inductive Element where
  | mk (head : Head) (children : List Element)
  deriving Repr

namespace Element

def head : Element → Head
  | .mk head _ => head

def children : Element → List Element
  | .mk _ children => children

def display (e : Element) : String := e.head.display

end Element

end DocWire.Markup
