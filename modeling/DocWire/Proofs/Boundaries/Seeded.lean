/-
  DocWire.Proofs.Boundaries.Seeded — which headers come back.

  The rule is that a document that is written and read again has its header again, and that a header field with
  nothing on the wire is left unset. Writers keep to it: they write the fields that are set and no others. Readers
  start from a new document, though, and a new document has header fields of its own: the message type, and the
  extension and the release where the key has them (`isSome_seededHeader`). So a field that was set comes back with
  its text, and a field that was not set comes back unset or, if a new document has it, seeded; and the header is the
  same exactly where none of the seeded fields was unset (`headers_returned`).

  `unset_type_returned`: an order whose message type was unset in the header comes back with the type set, through
  either boundary.
-/

import DocWire.Proofs.Connector.Documents
import DocWire.Proofs.Xml.Document

namespace DocWire

namespace Document

/-- The header fields that a new document of a key has set. -/
def Seeded (key : TypeKey) : HeaderField → Prop
  | .idocType => True
  | .idocTypeExtension => key.extension ≠ ""
  | .idocSapRelease => key.systemRelease ≠ ""
  | _ => False

theorem isSome_seededHeader (key : TypeKey) (f : HeaderField) : ((seededHeader key).get f).isSome ↔ Seeded key f := by
  by_cases hextension : key.extension = "" <;> by_cases hrelease : key.systemRelease = "" <;>
    cases f <;> simp [seededHeader, Seeded, Header.empty, hextension, hrelease]

/-- A header that was read back. -/
structure HeaderReturned (d d' : Document) : Prop where
  set : ∀ f text, d.header.get f = some text → d'.header.get f = some text
  unset : ∀ f, d.header.get f = none → ((d'.header.get f).isSome ↔ Seeded d.key f)
  same_iff : d'.header = d.header ↔ ∀ f, Seeded d.key f → (d.header.get f).isSome

variable {d d' : Document}

theorem Returned.headerReturned (h : d.Returned d') : d.HeaderReturned d' := by
  refine ⟨?_, ?_, ?_⟩
  · intro f text hset
    rw [h.header, hset, Option.some_or]
  · intro f hunset
    rw [h.header, hunset, Option.none_or, isSome_seededHeader]
  · constructor
    · intro hsame f hseeded
      by_contra hunset
      rw [Bool.not_eq_true, Option.isSome_eq_false_iff, Option.isNone_iff_eq_none] at hunset
      have hget : (d.header.get f).isSome := by
        rw [← hsame, h.header, hunset, Option.none_or]
        exact (isSome_seededHeader d.key f).mpr hseeded
      rw [hunset] at hget
      cases hget
    · intro hall
      have hfields : d'.header.get = d.header.get := by
        funext f
        rw [h.header]
        cases hset : d.header.get f with
        | some text => rfl
        | none =>
          have hseeded : ¬ ((seededHeader d.key).get f).isSome := by
            intro hs
            have := hall f ((isSome_seededHeader d.key f).mp hs)
            rw [hset] at this
            cases this
          rw [Option.none_or]
          exact Option.not_isSome_iff_eq_none.mp hseeded
      exact congrArg Header.mk hfields

end Document

namespace Boundaries

variable {schema : Definition} {r : Registry}

/-- Headers come back from both boundaries but for what a new document has. Whatever was set and unset in the header of
a document that came about under a compiled registry: where it can be written it is read again; each header field that
was set has its text, each that was not is unset exactly if a new document of the type has it unset, and the whole
header is as it was exactly where all fields that a new document has set were set. -/
theorem headers_returned (hr : Registry.compile schema = .ok r) {d : Document} (hd : Document.Reach r d) (creation : Stamp) :
    (∀ (o o' : Options) (text : String), d.schema.XmlSafe → ReferenceFree o.base → o'.base = o.base →
      Xml.documentText o d = .ok text →
        ∃ d', Xml.documentOfText r o' creation text = .ok d' ∧ d.HeaderReturned d') ∧
    ∀ n : NativeDocument, Native.ofDocument d = .ok n →
      ∃ d', Native.readDocument d.schema creation n = .ok d' ∧ d.HeaderReturned d' := by
  obtain ⟨hm, hsound⟩ := hd.sound hr
  constructor
  · intro o o' text hsafe ho hbase htext
    obtain ⟨d', hread, hreturned⟩ := Xml.documentOfText_documentText hr hm hsound hsafe ho hbase creation htext
    exact ⟨d', hread, hreturned.headerReturned⟩
  · intro n hn
    obtain ⟨d', hread, hreturned⟩ := Native.readDocument_encoded (Registry.resolved hr hm) hsound hn creation
    exact ⟨d', hread, hreturned.headerReturned⟩

theorem headers_returned_order : ∃ text n, Xml.documentText {} Document.twoItems = .ok text ∧
    Native.ofDocument Document.twoItems = .ok n ∧
    (∃ d', Xml.documentOfText Document.orders { indent := 0 } Document.twoItems.creation text = .ok d' ∧
      Document.twoItems.HeaderReturned d') ∧
    ∃ d', Native.readDocument Document.orderSchema Document.twoItems.creation n = .ok d' ∧
      Document.twoItems.HeaderReturned d' := by
  obtain ⟨text, htext⟩ := Outcome.exists_ok (x := Xml.documentText {} Document.twoItems) (by decide +kernel)
  obtain ⟨n, hn⟩ := Outcome.exists_ok (x := Native.ofDocument Document.twoItems) (by decide +kernel)
  have hboth := headers_returned Document.orders_compiled Document.twoItems_reach Document.twoItems.creation
  exact ⟨text, n, htext, hn, hboth.1 {} { indent := 0 } text (by decide +kernel) (by decide +kernel) rfl htext,
    hboth.2 n hn⟩

/-- An order whose header no longer tells its message type. -/
def untypedOrder : Document := Document.twoItems.edit (.unsetHeader .idocType)

/-- The message type was unset, and is set again behind either boundary: the header is not the one that was written. -/
theorem unset_type_returned : untypedOrder.header.get .idocType = none ∧ ∃ text n d₁ d₂,
    Xml.documentText {} untypedOrder = .ok text ∧ Native.ofDocument untypedOrder = .ok n ∧
    Xml.documentOfText Document.orders {} untypedOrder.creation text = .ok d₁ ∧
    Native.readDocument Document.orderSchema untypedOrder.creation n = .ok d₂ ∧
    d₁.header.get .idocType = some "ORDER" ∧ d₂.header.get .idocType = some "ORDER" := by
  have hreach : Document.Reach Document.orders untypedOrder := .edit _ _ Document.twoItems_reach
  obtain ⟨hm, hsound⟩ := hreach.sound Document.orders_compiled
  obtain ⟨text, htext⟩ := Outcome.exists_ok (x := Xml.documentText {} untypedOrder) (by decide +kernel)
  obtain ⟨n, hn⟩ := Outcome.exists_ok (x := Native.ofDocument untypedOrder) (by decide +kernel)
  have hbase : ({} : Options).base = ({} : Options).base := rfl
  obtain ⟨d₁, hread₁, hreturned₁⟩ := Xml.documentOfText_documentText Document.orders_compiled hm hsound
    (by decide +kernel) (by decide +kernel) hbase untypedOrder.creation htext
  obtain ⟨d₂, hread₂, hreturned₂⟩ := Native.readDocument_encoded (Registry.resolved Document.orders_compiled hm) hsound hn
    untypedOrder.creation
  refine ⟨rfl, text, n, d₁, d₂, htext, hn, hread₁, hread₂, ?_, ?_⟩
  · rw [hreturned₁.header]
    rfl
  · rw [hreturned₂.header]
    rfl

end Boundaries

end DocWire
