/-
  DocWire.Parameters.Validate — the violations of a parameter set.

  Only values that are set can be wrong. The values of a record come before those of its nested records
  and rows, which follow in the order of the members.
-/

import DocWire.Document.Violation
import DocWire.Parameters.Record

namespace DocWire.Record

mutual

def violationsBelow (path : String) : Record → List Violation
  | .mk function shape slots =>
    fieldViolations path (Record.mk function shape slots).entries ++
      violationsOfSlots path (shape.members.map Member.name) slots

/-- The violations within the slots, whose members have the given names. -/
def violationsOfSlots (path : String) (names : List String) : List (Slot Record) → List Violation
  | [] => []
  | slot :: rest =>
    violationsOfSlot (path ++ "/" ++ names.headD "") slot ++ violationsOfSlots path names.tail rest

def violationsOfSlot (path : String) : Slot Record → List Violation
  | .absent => []
  | .value _ => []
  | .nested r => violationsBelow path r
  | .table rows => violationsOfRows path 0 rows

def violationsOfRows (path : String) (index : Nat) : List Record → List Violation
  | [] => []
  | r :: rest =>
    violationsBelow (path ++ "[" ++ toString index ++ "]") r ++ violationsOfRows path (index + 1) rest

end

/-- Everything that is wrong with the parameter set. -/
def validate (r : Record) : List Violation := violationsBelow ("/" ++ r.name) r

end DocWire.Record
