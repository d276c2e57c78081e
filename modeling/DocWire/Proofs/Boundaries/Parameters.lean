/-
  DocWire.Proofs.Boundaries.Parameters — what parameter sets hold, wherever they come from.

  A record is bound to its shape (`Record.Bound`): what its slots hold is what its members declare, and a member is
  what its declared name means, so the slots are one entry for each name. Parameter sets that are edited, read from
  XML, filled from a native form, or answered to a call are bound, and so is every record within. The edits that
  follow keep what is there: a nested record or a row is changed by the edits that lead through it and by no others,
  and a table never has fewer rows (`bound_throughout`).
-/

import DocWire.Proofs.Connector.Calls
import DocWire.Proofs.Parameters.Persist
import DocWire.Proofs.Xml.Parameters

namespace DocWire

namespace Record

/-- What a record holds is bound to what its shape declares. -/
structure Bound (r : Record) : Prop where
  slots : r.slots.length = r.shape.members.length
  names : (r.shape.members.map Member.name).Nodup
  /-- A declared name means the member that declares it. -/
  found (i : Nat) (m : Member Shape) : r.shape.members[i]? = some m → r.get m.name = .ok (r.slotAt i)
  value (i : Nat) (v : Value) : r.slotAt i = .value v →
    ∃ decl, r.shape.members[i]? = some (.field decl) ∧ v.kind = decl.type.kind
  nested (i : Nat) (x : Record) : r.slotAt i = .nested x →
    ∃ declared description, r.shape.members[i]? = some (.nested declared description x.shape) ∧ x.function = r.function
  rows (i : Nat) (rows : List Record) : r.slotAt i = .table rows →
    ∃ declared description row, r.shape.members[i]? = some (.table declared description row) ∧
      ∀ x ∈ rows, x.shape = row ∧ x.function = r.function

variable {schema : Definition} {reg : Registry} {r x : Record} {i : Nat}

/-- A slot that holds something is the slot of a member. -/
theorem Sound.member_of_held (h : r.Sound) (hheld : r.slotAt i ≠ .absent) :
    ∃ m, r.shape.members[i]? = some m ∧ SlotSound r.function m (r.slotAt i) := by
  cases hm : r.shape.members[i]? with
  | none =>
    have hslot : r.slots[i]? = none := by
      rw [List.getElem?_eq_none_iff, ← (sound_iff.mp h).length_eq]
      exact List.getElem?_eq_none_iff.mp hm
    rw [Record.slotAt, hslot] at hheld
    exact (hheld rfl).elim
  | some m => exact ⟨m, rfl, h.slotAt hm⟩

/-- A sound record is bound, where no two members have one name. -/
theorem Sound.bound (h : r.Sound) (hd : r.shape.Distinct) : r.Bound where
  slots := (sound_iff.mp h).length_eq.symm
  names := hd.members
  found i m hm := by rw [get, resolve_declared hd hm, Outcome.map_ok]
  value i v hv := by
    obtain ⟨m, hm, hslot⟩ := h.member_of_held (i := i) (by simp [hv])
    rw [hv] at hslot
    cases m with
    | field decl => exact ⟨decl, hm, hslot⟩
    | nested declared description shape => cases hslot
    | table declared description row => cases hslot
  nested i x hx := by
    obtain ⟨m, hm, hslot⟩ := h.member_of_held (i := i) (by simp [hx])
    rw [hx] at hslot
    cases m with
    | field decl => cases hslot
    | nested declared description shape =>
      obtain ⟨hf, rfl, -⟩ := hslot
      exact ⟨declared, description, hm, hf⟩
    | table declared description row => cases hslot
  rows i rows hrows := by
    obtain ⟨m, hm, hslot⟩ := h.member_of_held (i := i) (by simp [hrows])
    rw [hrows] at hslot
    cases m with
    | field decl => cases hslot
    | nested declared description shape => cases hslot
    | table declared description row =>
      refine ⟨declared, description, row, hm, fun x hx => ?_⟩
      obtain ⟨hf, hs, -⟩ := rowsSound_iff.mp hslot x hx
      exact ⟨hs, hf⟩

/-- The records within what arises are bound. -/
theorem Arises.bound_within (hr : Registry.compile schema = .ok reg) (h : Arises reg r) (hx : x ∈ r.preorder) :
    x.function = r.function ∧ x.Bound := by
  obtain ⟨hf, hsound⟩ := h.sound.2.2.preorder hx
  exact ⟨hf, hsound.bound (h.sound.2.2.every_preorder (h.distinct hr) hx)⟩

theorem Arises.run (h : Arises reg r) (es : List (List Step × Edit)) : Arises reg (r.run es) := by
  induction es generalizing r with
  | nil => exact h
  | cons e es ih => exact ih (.edit r e.1 e.2 h)

end Record

namespace Boundaries

open Record (Arises)

variable {schema : Definition} {reg : Registry}

/-- Whatever arises under a compiled registry is the request or the response of one of its functions, and it and every
record within are bound, to that function and to their shapes. Any run of edits on it, whether they succeed or fail,
leaves what is at the end of a path there: changed by the edits that lead through there, as if they had been made on
it alone, and with no fewer rows in its tables. A path may end in a row, so the rows keep their places. What a call
answers arises. -/
theorem bound_throughout (hr : Registry.compile schema = .ok reg) :
    (∀ r, Arises reg r → r.function ∈ reg.functions ∧
      (r.shape = r.function.request ∨ r.shape = r.function.response) ∧
      ∀ x ∈ r.preorder, x.function = r.function ∧ x.Bound) ∧
    (∀ r, Arises reg r → ∀ es, Arises reg (r.run es) ∧
      ∀ path x, r.atPath path = .ok x →
        (r.run es).atPath path = .ok (x.run (r.directed path es)) ∧
        ∀ name row rows, x.table name = .ok (row, some rows) →
          ∃ rows', (x.run (r.directed path es)).table name = .ok (row, some rows') ∧ rows.length ≤ rows'.length) ∧
    ∀ (σ ρ : Type) (p : Port σ ρ) (s s' : σ) (top x answer : Record), Arises reg top → x ∈ top.preorder →
      p.call x s = (.ok answer, s') → Arises reg answer := by
  refine ⟨fun r h => ?_, fun r h es => ⟨h.run es, fun path x hx => ?_⟩, fun σ ρ p s s' top x answer h hx hcall => ?_⟩
  · obtain ⟨hf, hshape, -⟩ := h.sound
    exact ⟨hf, hshape, fun x hx => h.bound_within hr hx⟩
  · obtain ⟨-, -, hsound⟩ := h.sound
    have hxsound : x.Sound := hsound.atPath_sound hx
    exact ⟨hsound.atPath_run es hx, fun name row rows => hxsound.table_run _⟩
  · obtain ⟨hf, -, hsound⟩ := h.sound
    have hfx : x.function ∈ reg.functions := (hsound.preorder hx).1 ▸ hf
    exact Port.call_arises hfx hcall

/-- Edits of the order's request: a second item, another city for the first one, and what is refused. -/
def amendments : List (List Record.Step × Record.Edit) :=
  [([], .addRow "ITEMS"), ([.row "ITEMS" 0, .nested "TO"], .setWire "CITY" "Ulm"), ([.row "ITEMS" 7], .unset "QTY"),
    ([.nested "ADDRESS"], .addRow "CITY")]

/-- Answers every order with what was ordered. -/
def orderEcho : Connector := .new [("/BIZ/ORDER", .ok)]

theorem bound_throughout_order : (∀ x ∈ Xml.orderRequest.preorder, x.Bound) ∧
    (∃ row, Xml.orderRequest.atPath [.row "ITEMS" 0] = .ok row ∧
      (Xml.orderRequest.run amendments).atPath [.row "ITEMS" 0] =
        .ok (row.run [([.nested "TO"], .setWire "CITY" "Ulm")])) ∧
    ∃ answer c, Connector.port.call Xml.orderRequest orderEcho = (.ok answer, c) ∧ ∀ x ∈ answer.preorder, x.Bound := by
  obtain ⟨hbound, hkept, hanswers⟩ := bound_throughout Xml.orderCalls_compiled
  have hwithin : ∀ r, Arises Xml.orderCalls r → ∀ x ∈ r.preorder, x.Bound :=
    fun r h x hx => ((hbound r h).2.2 x hx).2
  have harises : Arises Xml.orderCalls Xml.orderRequest := .made _ Xml.orderRequest_reach
  refine ⟨hwithin _ harises, ?_, ?_⟩
  · obtain ⟨row, hrow⟩ := Outcome.exists_ok (x := Xml.orderRequest.atPath [.row "ITEMS" 0]) (by decide +kernel)
    exact ⟨row, hrow, ((hkept _ harises amendments).2 _ row hrow).1⟩
  · obtain ⟨answer, hanswer⟩ := Outcome.exists_ok (x := (Connector.port.call Xml.orderRequest orderEcho).1)
      (by decide +kernel)
    have hcall : Connector.port.call Xml.orderRequest orderEcho =
        (.ok answer, (Connector.port.call Xml.orderRequest orderEcho).2) := Prod.ext hanswer rfl
    have htop : Xml.orderRequest ∈ Xml.orderRequest.preorder := Record.mem_preorder.mpr (.inl rfl)
    exact ⟨answer, _, hcall, hwithin _ (hanswers _ _ _ _ _ _ _ _ harises htop hcall)⟩

end Boundaries

end DocWire
