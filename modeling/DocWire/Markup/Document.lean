/-
  DocWire.Markup.Document — the one element that a text holds.

  Events are read onto a stack of open elements. There must be one element at the top, closed in the end;
  text between tags must be white space once its references are resolved, and sections of character data
  are refused.
-/

import DocWire.Markup.Event

namespace DocWire.Markup

/-- An open element with the children it has so far, the last one first. -/
abbrev Open := Head × List Element

/-- The open elements, the innermost first, and the root once it is closed. -/
structure Building where
  stack : List Open
  root : Option Element

namespace Building

def start : Building := ⟨[], none⟩

/-- Puts a finished element into the innermost open one, or at the top. -/
def attach (b : Building) (e : Element) : Except Malformed Building :=
  match b.stack with
  | (head, done) :: outer => .ok { b with stack := (head, e :: done) :: outer }
  | [] =>
    match b.root with
    | some _ => .error (.secondRoot e.display)
    | none => .ok { b with root := some e }

/-- Finishes the innermost open element. -/
def close (b : Building) : Except Malformed Building :=
  match b.stack with
  | [] => .error .unbalancedEnd
  | (head, done) :: outer => { b with stack := outer }.attach (.mk head done.reverse)

/-- Refuses text that is not white space. -/
def checkText (raw : String) : Except Malformed Unit :=
  match unescape raw with
  | .error fault => .error (.tag fault)
  | .ok text => if (Text.trim text.toList).isEmpty then .ok () else .error (.characterData text)

def step (b : Building) : Event → Except Malformed Building
  | .opened head => .ok { b with stack := (head, []) :: b.stack }
  | .empty head => b.attach (.mk head [])
  | .closed => b.close
  | .text raw => (checkText raw).map fun _ => b
  | .characters => .error .characterSection
  | .fault m => .error m

/-- The root, when everything is closed. -/
def finish (b : Building) : Except Malformed Element :=
  match b.stack with
  | (head, _) :: _ => .error (.unclosedElement head.display)
  | [] =>
    match b.root with
    | some e => .ok e
    | none => .error .noRoot

end Building

/-- The element that a sequence of events builds. -/
def Element.ofEvents (events : List Event) : Except Malformed Element :=
  match events.foldlM Building.step Building.start with
  | .error m => .error m
  | .ok b => b.finish

/-- Drops one byte-order mark. -/
def dropMark : List Char → List Char
  | '\ufeff' :: rest => rest
  | s => s

/-- The element that a text holds. -/
def Element.ofText (text : List Char) : Except Malformed Element :=
  Element.ofEvents (events (tags (dropMark text)))

end DocWire.Markup
