/-
  DocWire.Data.Node — data as a tree.

  A record keeps the order of its members and repeated members; it is judged where it is read. Its names
  are texts as a rule. Where data is held before it is known what it is for, keys are data themselves
  (`mapping`).
-/

namespace DocWire

inductive Node where
  | null
  | bool (b : Bool)
  | natural (n : Nat)
  /-- A natural number behind a minus sign. -/
  | negative (n : Nat)
  /-- Any other number, as it is written. -/
  | real (text : String)
  | text (s : String)
  /-- Data that is well formed but can only be skipped. -/
  | skippable
  | list (items : List Node)
  | record (members : List (String × Node))
  /-- A record whose keys are data themselves. -/
  | mapping (pairs : List (Node × Node))
  deriving Inhabited, Repr

namespace Node

/-! ## Parts -/

def text? : Node → Option String
  | .text s => some s
  | _ => none

def bool? : Node → Option Bool
  | .bool b => some b
  | _ => none

def integer? : Node → Option Int
  | .natural n => some n
  | .negative n => some (-n)
  | _ => none

/-- A natural number below `2^bits`. -/
def natural? (bits : Nat) (node : Node) : Option Nat :=
  (node.integer?.filter fun (i : Int) => 0 ≤ i ∧ i < Nat.pow 2 bits).map Int.toNat

def items? : Node → Option (List Node)
  | .list items => some items
  | _ => none

/-! ## Holding data -/

mutual

/-- Whether data can be held as it is: it nests no deeper than `room`, and there is nothing in it that can
only be skipped. -/
def isHeld (room : Nat) : Node → Bool
  | .skippable => false
  | .list items => 0 < room && areHeld (room - 1) items
  | .record members => 0 < room && membersHeld (room - 1) members
  | .mapping pairs => 0 < room && pairsHeld (room - 1) pairs
  | _ => true

def areHeld (room : Nat) : List Node → Bool
  | [] => true
  | item :: rest => isHeld room item && areHeld room rest

def membersHeld (room : Nat) : List (String × Node) → Bool
  | [] => true
  | (_, value) :: rest => isHeld room value && membersHeld room rest

def pairsHeld (room : Nat) : List (Node × Node) → Bool
  | [] => true
  | (key, value) :: rest => isHeld room key && isHeld room value && pairsHeld room rest

end

end Node

end DocWire
