/-
  DocWire.Data.Yaml — records read out of YAML documents.

  A scalar without quotes is a number, a truth value, nothing at all or a text, whichever is asked for.
  What is held for later gets its type from how it is written, or from a tag of the core schema. A tag of
  one's own selects one of several names; where data is held there are none to select from, and such a tag
  is a fault.

  References are followed where they are read, so a node may well contain itself. Two limits end the reading
  of such documents: how deep data is held, and how often references are followed.
-/

import DocWire.Data.Source
import DocWire.Data.Yaml.Plain

namespace DocWire.Yaml

/-- Reading a document, with the number of references followed so far. -/
abbrev Reading := ReaderT Document (StateT Nat Option)

namespace Reading

/-- References may be followed a hundred times for each place of the document. -/
def limit (d : Document) : Nat := 100 * d.root.places

/-- The node that a reference stands for. -/
def follow (node : Node) : Reading Node := do
  match node with
  | .reference anchor =>
    let d ← read
    let followed ← get
    if followed < limit d then
      set (followed + 1)
      d.find? anchor
    else failure
  | node => return node

/-- The scalar that a node is. -/
def scalar (node : Node) : Reading Scalar := do
  match ← follow node with
  | .scalar s => return s
  | _ => failure

/-! ## Holding data -/

/-- Holds a node; `inner?` holds those in it, if they may be there. -/
def holdWith (inner? : Option (Node → Reading DocWire.Node)) (node : Node) : Reading DocWire.Node := do
  match ← follow node, inner? with
  | .scalar s, _ =>
    match s.toNode? with
    | some .skippable | none => failure
    | some data => return data
  | .list tag? items, some inner =>
    if (variant? tag?).isSome then failure
    return .list (← items.mapM inner)
  | .mapping tag? pairs, some inner =>
    if (variant? tag?).isSome then failure
    return .mapping (← pairs.mapM fun (key, value) => return (← inner key, ← inner value))
  | _, _ => failure

/-- Holds a node that nests no deeper than `room`. -/
def hold : (room : Nat) → Node → Reading DocWire.Node
  | 0 => holdWith none
  | room + 1 => holdWith (some (hold room))

/-- How deep the inside of a tagged record may nest: a text may nest 128 levels, and five are open there. -/
def taggedRoom : Nat := 123

/-! ## Parts -/

def text (node : Node) : Reading String := return (← scalar node).text

/-- A text, or nothing; a tag may say that it is nothing. -/
def optionalText (node : Node) : Reading (Option String) := do
  let s ← scalar node
  if s.style != .plain then return some s.text
  match s.tag? with
  | none => return if s.text.isEmpty || isNull s.text then none else some s.text
  | some tag =>
    if tag != coreTag "null" then return some s.text
    else if isNull s.text then return none
    else failure

def bool (node : Node) : Reading Bool := do
  let s ← scalar node
  if s.isOpen "bool" then bool? s.text else failure

def natural (bits : Nat) (node : Node) : Reading Nat := do
  let s ← scalar node
  if s.isOpen "int" then (natural? s.text).filter (· < Nat.pow 2 bits) else failure

/-- The items of a list; a scalar that is left out is the empty list. -/
def items (node : Node) : Reading (List Node) := do
  match ← follow node with
  | .list _ items => return items
  | .scalar s => if s.isEmpty then return [] else failure
  | _ => failure

/-- The members of a mapping; a scalar that is left out is the empty mapping. -/
def members (known : List String) (node : Node) : Reading (Members Node) := do
  match ← follow node with
  | .mapping _ pairs =>
    let placed ← pairs.mapM fun (key, value) => return (known.idxOf (← text key), value)
    Members.ofPlaces? known placed
  | .scalar s => if s.isEmpty then return fun _ => none else failure
  | _ => failure

/-- One of the known names: a scalar, or a tag before nothing. -/
def choice (known : List String) (node : Node) : Reading String := do
  let s ← scalar node
  let name ← match variant? s.tag? with
    | some name => if s.isEmpty || (s.style == .plain && isNull s.text) then pure name else failure
    | none => pure s.text
  if known.contains name then return name else failure

/-- Reads the members of a tagged record: the tags among them, and the others as they are held. -/
def taggedMembers (tag : String) :
    List (Node × Node) → Reading (List String × List (DocWire.Node × DocWire.Node))
  | [] => return ([], [])
  | (key, value) :: rest => do
    match ← hold taggedRoom key with
    | .text name =>
      if name == tag then
        let found ← text value
        let (tags, others) ← taggedMembers tag rest
        return (found :: tags, others)
      else
        let value ← hold taggedRoom value
        let (tags, others) ← taggedMembers tag rest
        return (tags, (.text name, value) :: others)
    | key =>
      let value ← hold taggedRoom value
      let (tags, others) ← taggedMembers tag rest
      return (tags, (key, value) :: others)

/-- A tagged record: the tag stands in one of its members, or as the first item of a list. -/
def tagged (tag : String) (node : Node) : Reading (String × DocWire.Node) := do
  match ← follow node with
  | .mapping tag? pairs =>
    if (variant? tag?).isSome then failure
    match ← taggedMembers tag pairs with
    | ([found], others) => return (found, .mapping others)
    | _ => failure
  | .list tag? (first :: rest) =>
    if (variant? tag?).isSome then failure
    let found ← text first
    return (found, .list (← rest.mapM (hold taggedRoom)))
  | _ => failure

end Reading

/-- Data as it is read from a document. -/
def source : Source Node Reading where
  text := Reading.text
  optionalText := Reading.optionalText
  bool := Reading.bool
  natural := Reading.natural
  items := Reading.items
  members := Reading.members
  choice := Reading.choice
  tagged := Reading.tagged

/-- Reads a document from its root. -/
def Document.get? {α : Type} (d : Document) (read : Node → Reading α) : Option α :=
  (((read d.root).run d).run 0).map (·.1)

end DocWire.Yaml
