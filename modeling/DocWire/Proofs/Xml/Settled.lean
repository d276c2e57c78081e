/-
  DocWire.Proofs.Xml.Settled — elements in which no field is given twice.

  Which fields the attributes of a tag mean depends on what the tag is read as. A segment is of the type that its name means
  below the type of its parent; a nested record or a row has the shape that its member declares. So an element is settled
  for a message type, or for a shape, where each of its tags is settled for what it is read as. Tags that are not read as
  anything ask for nothing: the reader refuses them, in whatever order their attributes are.

  What is seen of values decides what is given twice. Where one declared field alone is seen, only the tags matter that
  give that field; where nothing is seen, every element is settled (`settledDocument_hidden`, `settledRecord_hidden`).
-/

import DocWire.Proofs.Xml.Order

namespace DocWire.Xml

open Markup (Element)

mutual

/-- The tag of a segment is settled for the type that its name means below `type`, and so are those below it. -/
def SettledSegment (view : View SegmentType) (m : MessageType) (type : SegmentType) : Element → Prop
  | .mk h children => ∀ slot child, m.childOf? type (Name.unescape h.name) = some (slot, child) →
      Settled (view child) (fieldAim m child) h ∧ SettledWrappers view m child children

def SettledSegments (view : View SegmentType) (m : MessageType) (type : SegmentType) : List Element → Prop
  | [] => True
  | e :: rest => SettledSegment view m type e ∧ SettledSegments view m type rest

/-- All segments in an element around them are settled. -/
def SettledWrapper (view : View SegmentType) (m : MessageType) (type : SegmentType) : Element → Prop
  | .mk _ children => SettledSegments view m type children

def SettledWrappers (view : View SegmentType) (m : MessageType) (type : SegmentType) : List Element → Prop
  | [] => True
  | e :: rest => SettledWrapper view m type e ∧ SettledWrappers view m type rest

end

/-- The element of a document is settled for a message type. -/
def SettledDocument (view : View SegmentType) (m : MessageType) (e : Element) : Prop :=
  ∀ root, rootElement e = .ok root →
    Settled (view m.root) (fieldAim m m.root) root.head ∧ SettledWrappers view m m.root root.children

mutual

/-- The tag of a record and those below it are settled, each for the shape that it is read by. -/
def SettledRecord (view : View Shape) (own : Option String) (shape : Shape) : Element → Prop
  | .mk h children => Settled (view shape) (memberAim own shape) h ∧ SettledMembers view own shape children

def SettledMembers (view : View Shape) (own : Option String) (shape : Shape) : List Element → Prop
  | [] => True
  | .mk h children :: rest =>
    (match shape.member? own (Name.unescape h.name) with
      | some (.nested _ _ inner) => SettledRecord view own inner (.mk h children)
      | some (.table _ _ row) => SettledRows view own row children
      | _ => True) ∧ SettledMembers view own shape rest

def SettledRows (view : View Shape) (own : Option String) (row : Shape) : List Element → Prop
  | [] => True
  | .mk h children :: rest => SettledRecord view own row (.mk h children) ∧ SettledRows view own row rest

end

mutual

/-- Where nothing is seen of values, every element is settled. -/
theorem settledSegment_hidden (m : MessageType) (type : SegmentType) :
    ∀ e : Element, SettledSegment .hidden m type e
  | .mk h children => fun _ child _ => ⟨settled_hidden _ h, settledWrappers_hidden m child children⟩

theorem settledSegments_hidden (m : MessageType) (type : SegmentType) :
    ∀ es : List Element, SettledSegments .hidden m type es
  | [] => trivial
  | e :: rest => ⟨settledSegment_hidden m type e, settledSegments_hidden m type rest⟩

theorem settledWrapper_hidden (m : MessageType) (type : SegmentType) :
    ∀ e : Element, SettledWrapper .hidden m type e
  | .mk _ children => settledSegments_hidden m type children

theorem settledWrappers_hidden (m : MessageType) (type : SegmentType) :
    ∀ es : List Element, SettledWrappers .hidden m type es
  | [] => trivial
  | e :: rest => ⟨settledWrapper_hidden m type e, settledWrappers_hidden m type rest⟩

end

theorem settledDocument_hidden (m : MessageType) (e : Element) : SettledDocument .hidden m e :=
  fun root _ => ⟨settled_hidden _ root.head, settledWrappers_hidden m m.root root.children⟩

mutual

theorem settledRecord_hidden (own : Option String) : ∀ (shape : Shape) (e : Element),
    SettledRecord .hidden own shape e
  | shape, .mk h children => ⟨settled_hidden _ h, settledMembers_hidden own shape children⟩

theorem settledMembers_hidden (own : Option String) : ∀ (shape : Shape) (es : List Element),
    SettledMembers .hidden own shape es
  | _, [] => trivial
  | shape, .mk h children :: rest => by
    refine ⟨?_, settledMembers_hidden own shape rest⟩
    split
    · exact ⟨settled_hidden _ h, settledMembers_hidden own _ children⟩
    · exact settledRows_hidden own _ children
    · trivial

theorem settledRows_hidden (own : Option String) : ∀ (row : Shape) (es : List Element),
    SettledRows .hidden own row es
  | _, [] => trivial
  | row, .mk h children :: rest =>
    ⟨⟨settled_hidden _ h, settledMembers_hidden own row children⟩, settledRows_hidden own row rest⟩

end

end DocWire.Xml
