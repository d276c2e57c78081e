/-
  DocWire.Data.Yaml.Node — the nodes of a YAML document.

  A text holds one document, or none, which counts as a scalar left empty. A node may be given a name by an
  anchor, and a reference is to the number that the name has where the reference stands. A name that is new
  gets the number of names before it; one that is given again gets the number of all names, and so may share
  it with the next. A number stands for the last node that got it, even one behind or around the reference.
-/

import DocWire.Data.Yaml.Token

namespace DocWire.Yaml

structure Scalar where
  style : Style
  tag? : Option Tag
  text : String
  deriving DecidableEq, Repr

inductive Node where
  | scalar (s : Scalar)
  | list (tag? : Option Tag) (items : List Node)
  | mapping (tag? : Option Tag) (pairs : List (Node × Node))
  /-- The node with the anchor of that number. -/
  | reference (anchor : Nat)
  deriving Inhabited

namespace Node

/-- A scalar that is left out. -/
def empty : Node := .scalar ⟨.plain, none, ""⟩

mutual

/-- The number of places where a node begins, and where a list or mapping ends. -/
def places : Node → Nat
  | .scalar _ | .reference _ => 1
  | .list _ items => 2 + placesOfAll items
  | .mapping _ pairs => 2 + placesOfPairs pairs

def placesOfAll : List Node → Nat
  | [] => 0
  | item :: rest => places item + placesOfAll rest

def placesOfPairs : List (Node × Node) → Nat
  | [] => 0
  | (key, value) :: rest => places key + places value + placesOfPairs rest

end

end Node

structure Document where
  root : Node
  /-- The nodes with an anchor and the numbers of their anchors, in the order in which they begin. -/
  anchored : Array (Nat × Node)

/-- The node with the anchor of a number. -/
def Document.find? (d : Document) (anchor : Nat) : Option Node := d.anchored.toList.reverse.lookup anchor

/-- What is left of a document, and what is known from before. -/
structure Unread where
  tokens : List Token
  /-- The names that anchors gave, and the numbers that they have by now. -/
  names : List (String × Nat)
  anchored : Array (Nat × Node)
  handles : List (String × Tag)

abbrev Reader := StateT Unread Option

namespace Reader

def next? : Reader (Option Token) := return (← get).tokens.head?

def drop : Reader Unit := modify fun s => { s with tokens := s.tokens.tail }

/-- Whether the next token is one of those given; nothing is read. -/
def follows (ts : List (Option Token)) : Reader Bool := return ts.contains (← next?)

/-- Reads the next token if it is the one given. -/
def taken (t : Token) : Reader Bool := do
  let found := (← next?) == some t
  if found then drop
  return found

def expect (t : Token) : Reader Unit := do
  unless ← taken t do failure

/-! ## Properties of a node -/

/-- The number that a name has by now. -/
def find (name : String) : Reader Nat := do
  match (← get).names.lookup name with
  | some anchor => return anchor
  | none => failure

/-- Declares an anchor at the start of its node; gives the place of the node among those with an anchor. -/
def declare (name : String) : Reader Nat := do
  let s ← get
  let anchor := s.names.length
  set { s with
    names := (name, anchor) :: s.names.filter (·.1 != name)
    anchored := s.anchored.push (anchor, .empty) }
  return s.anchored.size

/-- Gives an anchor its node. -/
def complete (place : Nat) (node : Node) : Reader Unit :=
  modify fun s => { s with anchored := s.anchored.modify place fun (anchor, _) => (anchor, node) }

/-- The tag that a handle and a suffix stand for. -/
def resolveTag (handle : String) (suffix : Tag) : Reader Tag := do
  if handle.isEmpty then return suffix
  match (← get).handles.lookup handle with
  | some stem => return stem ++ suffix
  | none => failure

def anchor? : Reader (Option String) := do
  match ← next? with
  | some (.anchor name) => drop; return some name
  | _ => return none

def tag? : Reader (Option Tag) := do
  match ← next? with
  | some (.tag handle suffix) => drop; return some (← resolveTag handle suffix)
  | _ => return none

/-- The anchor and the tag of a node, in either order. -/
def properties : Reader (Option String × Option Tag) := do
  match ← anchor? with
  | some name => return (some name, ← tag?)
  | none =>
    let tag ← tag?
    return (← anchor?, tag)

/-! ## Nodes -/

/-- Where a node stands: what may begin there. -/
inductive Place where
  | flow
  | block
  /-- The key or value of a block mapping, where the items of a list need no indentation. -/
  | entry
  deriving DecidableEq

/-- A node, unless a token follows that leaves it empty. -/
def orEmpty (ends : List (Option Token)) (read : Reader Node) : Reader Node := do
  if ← follows ends then return .empty else read

mutual

/-- Reads a node. `room` bounds the nesting and the number of items together. -/
def readNode : Nat → Place → Reader Node
  | 0, _ => failure
  | room + 1, place => do
    if let some (.reference name) ← next? then
      drop
      return .reference (← find name)
    let (anchor, tag) ← properties
    let slot ← match anchor with
      | some name => declare name
      | none => pure 0
    let node ← match ← next?, place with
      | some (.scalar style text), _ => do drop; pure (.scalar ⟨style, tag, text⟩)
      | some .flowSequence, _ => do drop; .list tag <$> readFlowItems room true
      | some .flowMapping, _ => do drop; .mapping tag <$> readFlowPairs room true
      | some .blockSequence, .block => do drop; .list tag <$> readBlockItems room
      | some .blockSequence, .entry => do drop; .list tag <$> readBlockItems room
      | some .blockMapping, .block => do drop; .mapping tag <$> readBlockPairs room
      | some .blockMapping, .entry => do drop; .mapping tag <$> readBlockPairs room
      | some .item, .entry => .list tag <$> readBareItems room
      | _, _ => if anchor.isSome || tag.isSome then pure (.scalar ⟨.plain, tag, ""⟩) else failure
    if anchor.isSome then complete slot node
    return node

/-- Items between brackets. An item may be a single pair. -/
def readFlowItems : Nat → Bool → Reader (List Node)
  | 0, _ => failure
  | room + 1, first => do
    if ← taken .flowSequenceEnd then return []
    unless first do expect .comma
    if ← taken .flowSequenceEnd then return []
    let item ←
      if ← taken .key then do
        let key ←
          if ← follows [some .value, some .comma, some .flowSequenceEnd] then do drop; pure .empty
          else readNode room .flow
        let value ←
          if ← taken .value then orEmpty [some .comma, some .flowSequenceEnd] (readNode room .flow)
          else pure .empty
        pure (.mapping none [(key, value)])
      else readNode room .flow
    return item :: (← readFlowItems room false)

/-- Pairs between braces. A key may stand without a value. -/
def readFlowPairs : Nat → Bool → Reader (List (Node × Node))
  | 0, _ => failure
  | room + 1, first => do
    if ← taken .flowMappingEnd then return []
    unless first do expect .comma
    if ← taken .flowMappingEnd then return []
    let pair ←
      if ← taken .key then do
        let key ← orEmpty [some .value, some .comma, some .flowMappingEnd] (readNode room .flow)
        let value ←
          if ← taken .value then orEmpty [some .comma, some .flowMappingEnd] (readNode room .flow)
          else pure .empty
        pure (key, value)
      else do
        let key ← readNode room .flow
        pure (key, .empty)
    return pair :: (← readFlowPairs room false)

/-- The items of a block sequence. -/
def readBlockItems : Nat → Reader (List Node)
  | 0 => failure
  | room + 1 => do
    if ← taken .item then
      let item ← orEmpty [some .item, some .blockEnd] (readNode room .block)
      return item :: (← readBlockItems room)
    expect .blockEnd
    return []

/-- The items of a list that stands at the indentation of the mapping around it. -/
def readBareItems : Nat → Reader (List Node)
  | 0 => failure
  | room + 1 => do
    if ← taken .item then
      let item ← orEmpty [some .item, some .key, some .value, some .blockEnd] (readNode room .block)
      return item :: (← readBareItems room)
    return []

/-- The pairs of a block mapping. -/
def readBlockPairs : Nat → Reader (List (Node × Node))
  | 0 => failure
  | room + 1 => do
    let ends := [some .key, some .value, some .blockEnd]
    if ← taken .key then
      let key ← orEmpty ends (readNode room .entry)
      let value ← if ← taken .value then orEmpty ends (readNode room .entry) else pure .empty
      return (key, value) :: (← readBlockPairs room)
    expect .blockEnd
    return []

end

end Reader

/-! ## Documents -/

/-- The tag handles that need no declaration. -/
def knownHandles : List (String × Tag) := [("!", "!".toUTF8.toList), ("!!", "tag:yaml.org,2002:".toUTF8.toList)]

/-- Reads the declarations before a document: the version once, and every handle once. -/
def declarations (version : Bool) (handles : List (String × Tag)) :
    List Token → Option (List (String × Tag) × List Token)
  | .version :: rest => if version then none else declarations true handles rest
  | .handle handle stem :: rest =>
    if (handles.lookup handle).isSome then none else declarations version ((handle, stem) :: handles) rest
  | rest => some (handles, rest)

/-- The one document that tokens spell. Its start is marked where declarations come before it. -/
def ofTokens? (tokens : List Token) : Option Document :=
  match declarations false [] tokens with
  | none => none
  | some (handles, body) =>
    let node := Reader.readNode (3 * tokens.length + 3) .block
    let run (read : Reader Node) (body : List Token) : Option Document :=
      match read.run ⟨body, [], #[], handles ++ knownHandles⟩ with
      | some (root, s) => if s.tokens.all (· == .documentEnd) then some ⟨root, s.anchored⟩ else none
      | none => none
    match body with
    | .documentStart :: body => run (Reader.orEmpty [some .documentStart, some .documentEnd, none] node) body
    | body =>
      if body.length < tokens.length then none
      else if body.isEmpty then some ⟨.empty, #[]⟩
      else run node body

/-- The document that a text holds. -/
def read? (text : String) : Option Document := (tokens? text.toList).bind ofTokens?

end DocWire.Yaml
