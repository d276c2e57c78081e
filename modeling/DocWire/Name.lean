/-
  DocWire.Name — names with an owning namespace.

  A name of the form `/NS/LOCAL` is qualified; every other name is local, and stands in the namespace of
  the message that uses it. A requested name means a declared one when both have the same local part and
  the same namespace, the message's own where none is written. So a name of the own namespace is reached
  in both forms, a name of another namespace in the qualified form alone. A declared name that is written
  exactly as requested comes before all others (`resolve`).

  Markup names hold no `/`: it is written `_-` there (`escape`).
-/

namespace DocWire.Name

/-- Namespace and local part of a qualified name. -/
def splitQualified? (name : List Char) : Option (List Char × List Char) :=
  match name with
  | '/' :: rest =>
    match rest.dropWhile (· != '/') with
    | '/' :: localPart =>
      let ns := rest.takeWhile (· != '/')
      if !ns.isEmpty && !localPart.isEmpty && !localPart.contains '/' then some (ns, localPart)
      else none
    | _ => none
  | _ => none

/-- The namespace of a name, if it is qualified, and its local part. -/
def split (name : String) : Option String × String :=
  match splitQualified? name.toList with
  | some (ns, localPart) => (some (String.ofList ns), String.ofList localPart)
  | none => (none, name)

def namespace? (name : String) : Option String := (split name).1

def localPart (name : String) : String := (split name).2

def isQualified (name : String) : Bool := (namespace? name).isSome

/-- The form `/NS/LOCAL`. -/
def qualify (ns localPart : String) : String := "/" ++ ns ++ "/" ++ localPart

/-- The namespace that a name stands in, within a message of namespace `own`. -/
def effective (own : Option String) (name : String) : Option String := (namespace? name).or own

/-- Whether a requested name means a declared one. -/
def means (own : Option String) (declared requested : String) : Bool :=
  declared == requested ||
    (localPart declared == localPart requested && effective own declared == effective own requested)

/-- One pass over declared names. The requested name itself ends it; the first name that it means is kept for where
it is not there. -/
def resolveFrom (own : Option String) (requested : String) (kept : Option String) : List String → Option String
  | [] => kept
  | name :: rest =>
    if name = requested then some name
    else if kept.isNone && means own name requested then resolveFrom own requested (some name) rest
    else resolveFrom own requested kept rest

/-- The declared name that a requested one means: itself where it is declared, else the first. -/
def resolve (own : Option String) (declared : List String) (requested : String) : Option String :=
  resolveFrom own requested none declared

/-! ## Markup names -/

def escapeChars (name : List Char) : List Char :=
  name.flatMap fun c => if c = '/' then ['_', '-'] else [c]

def unescapeChars : List Char → List Char
  | '_' :: '-' :: rest => '/' :: unescapeChars rest
  | c :: rest => c :: unescapeChars rest
  | [] => []

def escape (name : String) : String := String.ofList (escapeChars name.toList)

/-- Reads `_-` from left to right as `/`. -/
def unescape (name : String) : String := String.ofList (unescapeChars name.toList)

end DocWire.Name
