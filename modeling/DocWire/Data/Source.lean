/-
  DocWire.Data.Source — records read out of data.

  What counts as a text, a number or a record depends on how data is written down, and a source says it for
  one way. Records are read by the names that the reader knows: other members are passed over, and a known
  one may stand once.

  A record that is tagged by one of its members cannot be read before the tag is found, so the rest of it is
  held as data until then. Data that was held is read alike wherever it comes from (`Node.held`).
-/

import DocWire.Data.Node

namespace DocWire

/-- The members of a record by their names. -/
abbrev Members (δ : Type) := String → Option δ

/-- How the parts of data `δ` are read, in steps of `m`. -/
structure Source (δ : Type) (m : Type → Type) where
  text : δ → m String
  /-- A text, or nothing. -/
  optionalText : δ → m (Option String)
  bool : δ → m Bool
  /-- A natural number below `2^bits`. -/
  natural : (bits : Nat) → δ → m Nat
  items : δ → m (List δ)
  /-- The members of a record that have one of the known names. -/
  members : (known : List String) → δ → m (Members δ)
  /-- One of the known names. -/
  choice : (known : List String) → δ → m String
  /-- A record that one of its members tags: the tag, and the rest of the record. -/
  tagged : (tag : String) → δ → m (String × Node)

section

variable {δ α : Type} {m : Type → Type} [Monad m] [MonadLiftT Option m]

namespace Source

/-- Reads every item of a list. -/
def listOf (s : Source δ m) (read : δ → m α) (data : δ) : m (List α) := do
  (← s.items data).mapM read

end Source

namespace Members

/-- Members by the places of their names among those known; a place beyond them is that of an unknown
name. -/
def ofPlaces? (known : List String) (placed : List (Nat × δ)) : Option (Members δ) :=
  let own := placed.filter (·.1 < known.length)
  if (own.map (·.1)).eraseDups.length = own.length then some fun name => own.lookup (known.idxOf name) else none

/-- The members of a list, in the order of their names; it may end early. -/
def ofItems? (known : List String) (items : List δ) : Option (Members δ) :=
  if items.length ≤ known.length then ofPlaces? known ((List.range items.length).zip items) else none

/-- Reads a member that has to be there. -/
def require (members : Members δ) (name : String) (read : δ → m α) : m α :=
  match members name with
  | some data => read data
  | none => liftM (none : Option α)

/-- Reads a member; `default` stands for one that is absent. -/
def get (members : Members δ) (name : String) (default : α) (read : δ → m α) : m α :=
  match members name with
  | some data => read data
  | none => pure default

end Members

end

namespace Node

/-- The place of a member among those known, given its name or the place itself. -/
def place? (known : List String) : Node → Option Nat
  | .text name => some (known.idxOf name)
  | .natural place => some place
  | _ => none

/-- A text, or nothing. -/
def optionalText? : Node → Option (Option String)
  | .null => some none
  | node => node.text?.map some

/-- The members of a record; a list gives them in the order of their names. -/
def members? (known : List String) : Node → Option (Members Node)
  | .record members => Members.ofPlaces? known (members.map fun (name, value) => (known.idxOf name, value))
  | .mapping pairs =>
    let placed? := pairs.mapM fun (pair : Node × Node) => (place? known pair.1).map (·, pair.2)
    placed?.bind (Members.ofPlaces? known)
  | .list items => Members.ofItems? known items
  | _ => none

/-- One of the known names: a text, or the only key of a record that `isEmpty` finds to hold nothing. -/
def choice? (isEmpty : Node → Bool) (known : List String) (node : Node) : Option String :=
  let key? : Option Node := match node with
    | .text name => some (.text name)
    | .record [(name, value)] => if isEmpty value then some (.text name) else none
    | .mapping [(key, value)] => if isEmpty value then some key else none
    | _ => none
  ((key?.bind (place? known)).bind (known[·]?))

/-- Whether held data is nothing, or a record of nothing. -/
def isNothing : Node → Bool
  | .null | .record [] | .mapping [] => true
  | _ => false

/-- Data that was held. -/
def held : Source Node Option where
  text := text?
  optionalText := optionalText?
  bool := bool?
  natural := natural?
  items := items?
  members := members?
  choice := choice? isNothing
  tagged := fun _ _ => none

end Node

end DocWire
