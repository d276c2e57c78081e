/-
  DocWire.Schema.Shape — the resolved shape of a structure.

  A shape holds the shapes of its nested structures and table rows, all the way down. Equality of shapes
  is decidable; the three functions that decide it follow the shape, its members and one member.
-/

import DocWire.Schema.Field

namespace DocWire

inductive Shape where
  | mk (name description : String) (members : List (Member Shape))
  deriving Inhabited

namespace Shape

def name : Shape → String
  | .mk name _ _ => name

def description : Shape → String
  | .mk _ description _ => description

def members : Shape → List (Member Shape)
  | .mk _ _ members => members

/-- The place of the member that a requested name means. -/
def memberIndex? (s : Shape) (own : Option String) (requested : String) : Option Nat :=
  declaredIndex? own (s.members.map Member.name) requested

/-- The member that a requested name means. -/
def member? (s : Shape) (own : Option String) (requested : String) : Option (Member Shape) :=
  (s.memberIndex? own requested).bind fun i => s.members[i]?

/-- The scalar fields among the members. -/
def fields (s : Shape) : List FieldDecl := s.members.filterMap Member.field?

mutual

def same : Shape → Shape → Bool
  | .mk n d ms, .mk n' d' ms' => n == n' && d == d' && sameMembers ms ms'

def sameMembers : List (Member Shape) → List (Member Shape) → Bool
  | [], [] => true
  | m :: ms, m' :: ms' => sameMember m m' && sameMembers ms ms'
  | _, _ => false

def sameMember : Member Shape → Member Shape → Bool
  | .field f, .field f' => f == f'
  | .nested n d s, .nested n' d' s' => n == n' && d == d' && same s s'
  | .table n d s, .table n' d' s' => n == n' && d == d' && same s s'
  | _, _ => false

end

mutual

theorem eq_of_same : ∀ {s t : Shape}, same s t = true → s = t
  | .mk n d ms, .mk n' d' ms', h => by
    simp only [same, Bool.and_eq_true, beq_iff_eq] at h
    rw [h.1.1, h.1.2, eq_of_sameMembers h.2]

theorem eq_of_sameMembers : ∀ {ms ns : List (Member Shape)}, sameMembers ms ns = true → ms = ns
  | [], [], _ => rfl
  | m :: ms, m' :: ms', h => by
    simp only [sameMembers, Bool.and_eq_true] at h
    rw [eq_of_sameMember h.1, eq_of_sameMembers h.2]
  | [], _ :: _, h => by simp [sameMembers] at h
  | _ :: _, [], h => by simp [sameMembers] at h

theorem eq_of_sameMember : ∀ {m n : Member Shape}, sameMember m n = true → m = n
  | .field f, .field f', h => by
    simp only [sameMember, beq_iff_eq] at h
    rw [h]
  | .nested n d s, .nested n' d' s', h => by
    simp only [sameMember, Bool.and_eq_true, beq_iff_eq] at h
    rw [h.1.1, h.1.2, eq_of_same h.2]
  | .table n d s, .table n' d' s', h => by
    simp only [sameMember, Bool.and_eq_true, beq_iff_eq] at h
    rw [h.1.1, h.1.2, eq_of_same h.2]
  | .field _, .nested _ _ _, h => by simp [sameMember] at h
  | .field _, .table _ _ _, h => by simp [sameMember] at h
  | .nested _ _ _, .field _, h => by simp [sameMember] at h
  | .nested _ _ _, .table _ _ _, h => by simp [sameMember] at h
  | .table _ _ _, .field _, h => by simp [sameMember] at h
  | .table _ _ _, .nested _ _ _, h => by simp [sameMember] at h

end

mutual

theorem same_self : ∀ s : Shape, same s s = true
  | .mk n d ms => by simp [same, sameMembers_self ms]

theorem sameMembers_self : ∀ ms : List (Member Shape), sameMembers ms ms = true
  | [] => by simp [sameMembers]
  | m :: ms => by simp [sameMembers, sameMember_self m, sameMembers_self ms]

theorem sameMember_self : ∀ m : Member Shape, sameMember m m = true
  | .field f => by simp [sameMember]
  | .nested n d s => by simp [sameMember, same_self s]
  | .table n d s => by simp [sameMember, same_self s]

end

theorem same_iff {s t : Shape} : same s t = true ↔ s = t :=
  ⟨eq_of_same, fun h => h ▸ same_self s⟩

/-- A shape may stand in many places, so two that are one in memory are not compared any further. -/
instance : DecidableEq Shape := fun s t =>
  withPtrEqDecEq s t fun _ =>
    if h : same s t = true then .isTrue (eq_of_same h) else .isFalse fun e => h (same_iff.mpr e)

end Shape

/-- The two parameter lists of a function. -/
structure Function where
  name : String
  /-- The namespace that local names of its parameters stand in. -/
  ns : Option String
  description : String
  request : Shape
  response : Shape
  deriving DecidableEq, Inhabited

namespace Function

/-- The name of every request shape. -/
def requestName : String := "Request"

/-- The name of every response shape. -/
def responseName : String := "Response"

end Function

end DocWire
