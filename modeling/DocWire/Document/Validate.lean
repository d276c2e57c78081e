/-
  DocWire.Document.Validate — the violations of a document.

  Violations come in the pre-order of the segments; those of one segment start with its fields, in the
  order of declaration, and go on with the counts of its children, slot by slot.
-/

import DocWire.Document.Basic
import DocWire.Document.Violation

namespace DocWire

namespace ChildSlot

/-- How often the child has to occur. -/
def required (slot : ChildSlot) : Nat := max slot.minOccurrence (if slot.mandatory then 1 else 0)

/-- What is wrong with the number of children of the slot's type. -/
def countCauses (slot : ChildSlot) (count : Nat) : List ViolationCause :=
  (if count < slot.required then [.tooFew slot.segmentType count slot.required] else []) ++
    (if slot.maxOccurrence < count then [.tooMany slot.segmentType count slot.maxOccurrence] else [])

end ChildSlot

namespace Document

/-- The segment type at the top of a tree. -/
def typeOf (t : Tree Segment) : String := t.value.type.name

/-- How many of the trees are of a segment type. -/
def countOf (trees : List (Tree Segment)) (segmentType : String) : Nat :=
  (trees.filter fun t => typeOf t == segmentType).length

/-- The violations of one segment with the given children. -/
def segmentViolations (path : String) (s : Segment) (children : List (Tree Segment)) : List Violation :=
  fieldViolations path s.entries ++
    s.type.children.flatMap fun slot =>
      (slot.countCauses (countOf children slot.segmentType)).map fun cause => ⟨path, cause⟩

mutual

def violationsBelow (path : String) : Tree Segment → List Violation
  | .node s children => segmentViolations path s children ++ violationsOfAll path [] children

/-- The violations of siblings, numbered for each segment type by those `before`. -/
def violationsOfAll (path : String) (before : List String) : List (Tree Segment) → List Violation
  | [] => []
  | t :: rest =>
    let name := typeOf t
    violationsBelow (path ++ "/" ++ name ++ "[" ++ toString (before.count name) ++ "]") t ++
      violationsOfAll path (name :: before) rest

end

/-- Everything that is wrong with the finished document. -/
def validate (d : Document) : List Violation := violationsBelow ("/" ++ rootType) d.tree

end Document

end DocWire
