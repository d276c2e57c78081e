/-
  DocWire.Proofs.Boundaries.Relayed — fields that are handed on from system to system.

  A system reads a field from the attributes of an element or from a native object, and writes it as either of the two.
  Both sides read and write wire strings in the one way that the field's format gives (`Side.read_eq_some`,
  `Side.write_eq_some`), so a relay changes a wire string no more than reading and writing it again does, and further
  relays do not change it any more.

  - `wires_relayed`: reading and writing again, one relay after the other, and which decimals lose their sign thereby.
-/

import DocWire.Connector.Consume
import DocWire.Connector.Produce
import DocWire.Proofs.Field.HandedOn
import DocWire.Xml.Encode

namespace DocWire

/-- Where a field is read or written: the attributes of an element, or the values of a native object. -/
inductive Side where
  | xml
  | native
  deriving DecidableEq, Repr

namespace Side

/-- What a field is set to, on a side that has one wire string for it. -/
def read (decl : FieldDecl) (w : String) : Side → Option Value
  | xml => (decl.acceptWire w).toOption.join
  | native => (Native.decodeField [(decl.name, w)] decl).toOption.join

/-- The wire string that a side has for a field with a value. -/
def write (decl : FieldDecl) (v : Value) : Side → Option String
  | xml => (Xml.fieldAttributes [(decl, v)]).toOption.bind (·.lookup (Name.escape decl.name))
  | native => (Native.encodeEntries [(decl, v)]).toOption.bind (·.lookup decl.name)

variable {decl : FieldDecl} {v : Value} {w : String}

theorem read_eq_some (side : Side) (h : Coercion.decodeWire decl.format w = .ok (some v)) : side.read decl w = some v := by
  cases side with
  | xml =>
    rw [read, FieldDecl.acceptWire, h]
    rfl
  | native =>
    rw [read, Native.decodeField, List.lookup_cons_self]
    simp only [h]
    rfl

theorem write_eq_some (side : Side) (h : Coercion.encode decl.format v = .ok w) : side.write decl v = some w := by
  cases side with
  | xml =>
    simp only [write, Xml.fieldAttributes, List.mapM_cons, List.mapM_nil, h]
    exact List.lookup_cons_self
  | native =>
    simp only [write, Native.encodeEntries, Native.encodeField, List.mapM_cons, List.mapM_nil, h]
    exact List.lookup_cons_self

end Side

namespace Boundaries

/-- A system reads a wire string on one side and writes what it has read on the other, or on the same. -/
def relay (decl : FieldDecl) (w : String) (sides : Side × Side) : Option String :=
  (sides.1.read decl w).bind fun v => sides.2.write decl v

open Coercion

/-- A relay hands on what can be handed on again. -/
theorem relay_encoded {decl : FieldDecl} {v : Value} {w : String} (sides : Side × Side)
    (h : encode decl.format v = .ok w) :
    relay decl w sides = some (handedOn decl.format w) ∧ ∃ v', encode decl.format v' = .ok (handedOn decl.format w) := by
  obtain ⟨v', hread, hwrite⟩ := decoded_encode h
  refine ⟨?_, v', hwrite⟩
  rw [relay, Side.read_eq_some sides.1 hread, Option.bind_some, Side.write_eq_some sides.2 hwrite]

/-- The first of several relays decides. -/
theorem relays_encoded {decl : FieldDecl} {w : String} (path : List (Side × Side)) :
    ∀ {v : Value}, encode decl.format v = .ok w → ∀ sides,
      (sides :: path).foldlM (relay decl) w = some (handedOn decl.format w) := by
  induction path generalizing w with
  | nil =>
    intro v h sides
    rw [List.foldlM_cons, (relay_encoded sides h).1]
    rfl
  | cons next rest ih =>
    intro v h sides
    obtain ⟨hrelay, v', hv'⟩ := relay_encoded sides h
    rw [List.foldlM_cons, hrelay]
    exact (ih hv' next).trans (congrArg some (handedOn_handedOn decl.format w))

/-- A wire string that was written can be read and written again, and keeps its form: at once, and by way of any number
of relays between elements and native objects. Only the `-0E0` of floating-point fields becomes `0E0`, which is the form
of negative decimals of at most half a unit, and of these alone. -/
theorem wires_relayed {f : Format} {v : Value} {w : String} (h : encode f v = .ok w) :
    (∃ v', decode f w = .ok v' ∧ decodeWire f w = .ok (some v') ∧ encode f v' = .ok (handedOn f w)) ∧
    (∀ decl : FieldDecl, decl.format = f → ∀ path : List (Side × Side),
      path.foldlM (relay decl) w = some (if path = [] then w else handedOn f w)) ∧
    (handedOn f w ≠ w ↔ f.type = .float ∧ ∃ d, v = .decimal d ∧ -(1 / 2 ^ 1075) ≤ d.value ∧ d.value < 0) := by
  refine ⟨?_, ?_, handedOn_ne_iff h⟩
  · obtain ⟨v', hread, hwrite⟩ := decoded_encode h
    exact ⟨v', decode_of_decodeWire hread, hread, hwrite⟩
  · rintro decl rfl path
    cases path with
    | nil => rfl
    | cons sides rest =>
      rw [relays_encoded rest h sides, if_neg (List.cons_ne_nil _ _)]

/-- Three thousand, held with a negative scale, stays `3000` on its way through elements and native objects; a negative
decimal that underflows stays a zero without a sign. -/
theorem wires_relayed_thousands :
    (∃ v', decode ⟨.quantity, 8, 2⟩ "3000" = .ok v' ∧ encode ⟨.quantity, 8, 2⟩ v' = .ok "3000") ∧
    [(Side.xml, Side.native), (.native, .native), (.native, .xml)].foldlM
      (relay { name := "AMOUNT", type := .quantity, length := 8, decimals := 2 }) "3000" = some "3000" ∧
    [(Side.native, Side.xml), (.xml, .native)].foldlM (relay { name := "RATE", type := .float }) "-0E0" = some "0E0" := by
  have hwire : encode ⟨.quantity, 8, 2⟩ (.decimal ⟨3, -3⟩) = .ok "3000" := by rfl
  have hzero : encode ⟨.float, 0, 0⟩ (.decimal ⟨-1, 400⟩) = .ok "-0E0" := by decide +kernel
  obtain ⟨⟨v', hread, -, hwrite⟩, hpath, -⟩ := wires_relayed hwire
  obtain ⟨-, hlost, -⟩ := wires_relayed hzero
  exact ⟨⟨v', hread, hwrite⟩, hpath _ rfl _, hlost _ rfl _⟩

/-- Not every wire string keeps its form: a decimal just below zero is written as `-0E0`, which is read as zero, and zero
is written as `0E0`. -/
theorem negativeZero_altered :
    encode ⟨.float, 0, 0⟩ (.decimal ⟨-1, 400⟩) = .ok "-0E0" ∧
    decode ⟨.float, 0, 0⟩ "-0E0" = .ok (.decimal ⟨0, 0⟩) ∧
    encode ⟨.float, 0, 0⟩ (.decimal ⟨0, 0⟩) = .ok "0E0" ∧
    ¬ ∀ f v w, encode f v = .ok w → ∃ v', decode f w = .ok v' ∧ encode f v' = .ok w := by
  have hwrite : encode ⟨.float, 0, 0⟩ (.decimal ⟨-1, 400⟩) = .ok "-0E0" := by decide +kernel
  have hread : decode ⟨.float, 0, 0⟩ "-0E0" = .ok (.decimal ⟨0, 0⟩) := by decide +kernel
  have hagain : encode ⟨.float, 0, 0⟩ (.decimal ⟨0, 0⟩) = .ok "0E0" := by decide +kernel
  refine ⟨hwrite, hread, hagain, ?_⟩
  intro hstable
  obtain ⟨v', hv', hw'⟩ := hstable _ _ _ hwrite
  rw [hread, Except.ok.injEq] at hv'
  rw [← hv', hagain, Except.ok.injEq] at hw'
  exact absurd hw' (by decide)

end Boundaries

end DocWire
