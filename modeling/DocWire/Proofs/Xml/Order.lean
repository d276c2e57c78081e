/-
  DocWire.Proofs.Xml.Order — the attributes of one tag, in another order.

  An attribute that is read is refused, is passed over, or sets something; which of them depends on the tag and the
  attribute alone, so the order can only be seen where two attributes set the same thing. Of a document's header a field
  has one name, and a tag has no name twice (`readHeader_alike`). A declared field has several names, and the later of
  two values stays. So there the order cannot be seen where two attributes that mean one declared field give it values
  that look the same (`Settled`); this is shown for anything that is filled by putting values in the places of declared
  fields (`Fills`, `applyAttributes_alike`), which segments and records are.
-/

import DocWire.Proofs.Alike
import DocWire.Proofs.Document.Header
import DocWire.Proofs.Markup.Reordered
import DocWire.Proofs.Parameters.Seen
import DocWire.Xml.Decode

namespace DocWire.Xml

open Markup (Attribute Head)
open Outcome (Alike Orderless alike_ok alike_error stepFor)

variable {head head' : Head}

/-! ## Header fields -/

/-- The header field that an attribute sets, and its text. -/
def headerKind (h : Head) (a : Attribute) : Except XmlError (Option (HeaderField × String)) :=
  if a.ns.isSome then .error (unexpectedAttribute h a)
  else if isAdvisory a || a.name == creationDateAttribute || a.name == creationTimeAttribute then .ok none
  else match HeaderField.ofAttribute? a.name with
    | some f => .ok (some (f, a.value))
    | none => .error (unexpectedAttribute h a)

def putHeader (d : Document) (p : HeaderField × String) : Except XmlError Document := .ok (d.setHeader p.1 p.2)

theorem readHeader_eq (h : Head) (d : Document) :
    readHeader h d = h.attributes.foldlM (stepFor (headerKind h) putHeader) d := by
  rw [readHeader]
  congr 1
  funext d a
  rw [stepFor, headerKind]
  split
  · rfl
  split
  · rfl
  · cases HeaderField.ofAttribute? a.name <;> rfl

theorem unexpectedAttribute_eq (hr : head.Reordered head') : unexpectedAttribute head' = unexpectedAttribute head := by
  funext a
  rw [unexpectedAttribute, unexpectedAttribute, hr.display_eq]

theorem headerKind_eq (hr : head.Reordered head') : headerKind head' = headerKind head := by
  funext a
  simp only [headerKind, unexpectedAttribute_eq hr]

theorem setHeader_apart (d : Document) {f g : HeaderField} (hne : f ≠ g) (v w : String) :
    (d.setHeader f v).setHeader g w = (d.setHeader g w).setHeader f v := by
  rw [Document.setHeader, Document.setHeader, Document.setHeader, Document.setHeader]
  congr 1
  show Header.mk _ = Header.mk _
  congr 1
  funext x
  simp only [Header.get_set]
  by_cases hx : x = f
  · subst hx
    simp [hne]
  · simp [hx]

/-- Header fields can be set in any order where no two texts are given for one. -/
theorem putHeader_orderless (view : View SegmentType) :
    Orderless (fun _ => True) (Document.seen view) putHeader fun p q => p.1 = q.1 → p.2 = q.2 where
  kept _ _ := trivial
  same p _ _ hs := by
    refine alike_ok.mpr ?_
    show ((Document.seen view _).setHeader p.1 p.2) = (Document.seen view _).setHeader p.1 p.2
    rw [hs]
  swap := by
    intro d p q _ hp
    refine alike_ok.mpr ?_
    show Document.seen view ((d.setHeader p.1 p.2).setHeader q.1 q.2) =
      Document.seen view ((d.setHeader q.1 q.2).setHeader p.1 p.2)
    by_cases hf : p.1 = q.1
    · rw [hf, hp hf]
    · rw [setHeader_apart d hf]

theorem headerKind_eq_some {h : Head} {a : Attribute} {f : HeaderField} {text : String}
    (hk : headerKind h a = .ok (some (f, text))) : a.ns = none ∧ f.attributeName = a.name ∧ text = a.value := by
  unfold headerKind at hk
  split at hk
  · cases hk
  rename_i hns
  split at hk
  · cases hk
  split at hk
  · rename_i f' hf
    cases hk
    refine ⟨by simpa using hns, Lookup.name_of_find? hf, rfl⟩
  · cases hk

theorem readHeader_alike {view : View SegmentType} (hr : head.Reordered head') (honce : head.NamedOnce) (d : Document) :
    Alike (Document.seen view) (readHeader head d) (readHeader head' d) := by
  rw [readHeader_eq, readHeader_eq, headerKind_eq hr]
  refine (putHeader_orderless view).stepFor.foldlM_perm hr.attributes ?_ trivial trivial rfl
  rintro a ha b hb ⟨f, v⟩ ⟨g, w⟩ hka hkb (rfl : f = g)
  obtain ⟨hans, haname, rfl⟩ := headerKind_eq_some hka
  obtain ⟨hbns, hbname, rfl⟩ := headerKind_eq_some hkb
  rw [honce a ha b hb hans hbns (haname.symm.trans hbname)]

/-! ## Declared fields -/

/-- The name and the wire string that an attribute gives. -/
def given (a : Attribute) : String × String := (Name.unescape a.name, a.value)

/-- The place that a name means and what is put there, if the name means a field and the wire string is one of its. -/
def target? (place? : String → Option Nat) (decl? : Nat → Option FieldDecl) (p : String × String) :
    Option (Nat × Option Value) :=
  (place? p.1).bind fun i => (decl? i).bind fun decl => (decl.acceptWire p.2).toOption.map fun value? => (i, value?)

theorem place_of_target? {place? : String → Option Nat} {decl? : Nat → Option FieldDecl} {p : String × String} {i : Nat}
    {value? : Option Value} (h : target? place? decl? p = some (i, value?)) : place? p.1 = some i := by
  obtain ⟨j, hj, h⟩ := Option.bind_eq_some_iff.mp h
  obtain ⟨_, _, h⟩ := Option.bind_eq_some_iff.mp h
  obtain ⟨_, _, h⟩ := Option.map_eq_some_iff.mp h
  rw [hj, (Prod.mk.inj h).1]

/-- Where two names mean one place, the values that are given for it look the same. -/
def Agree (places : Nat → Value → Option Value) (aim : String × String → Option (Nat × Option Value))
    (p q : String × String) : Prop :=
  ∀ i v w, aim p = some (i, v) → aim q = some (i, w) → v.bind (places i) = w.bind (places i)

/-- No two attributes of a tag give one declared field values that look different. -/
def Settled (places : Nat → Value → Option Value) (aim : String × String → Option (Nat × Option Value)) (h : Head) : Prop :=
  ∀ a ∈ h.attributes, ∀ b ∈ h.attributes, isAdvisory a = false → isAdvisory b = false →
    Agree places aim (given a) (given b)

theorem settled_hidden (aim : String × String → Option (Nat × Option Value)) (h : Head) :
    Settled (fun _ _ => none) aim h := by
  intro a _ b _ _ _ i v w _ _
  rw [Option.bind_fun_none, Option.bind_fun_none]

/-- Where no two attributes mean one field, nothing is given twice. -/
theorem settled_of_names {places : Nat → Value → Option Value} {place? : String → Option Nat}
    {decl? : Nat → Option FieldDecl} {h : Head}
    (hnames : ∀ a ∈ h.attributes, ∀ b ∈ h.attributes, place? (given a).1 = place? (given b).1 →
      a = b ∨ place? (given a).1 = none) : Settled places (target? place? decl?) h := by
  intro a ha b hb _ _ i v w hp hq
  have hplace := place_of_target? hp
  rcases hnames a ha b hb (hplace.trans (place_of_target? hq).symm) with rfl | hnone
  · rw [(Prod.mk.inj (Option.some_inj.mp (hp.symm.trans hq))).2]
  · rw [hplace] at hnone
    cases hnone

/-- Setting a field by its name puts a value, or nothing, in the place that the name means, and asks for nothing that is
there. -/
structure Fills {σ : Type} (I : σ → Prop) (places : Nat → Value → Option Value) (seen : σ → σ)
    (set : σ → String → String → Except ModelError σ) (aim : String × String → Option (Nat × Option Value))
    (put : σ → Nat → Option Value → σ) : Prop where
  set_eq {s : σ} (p : String × String) : I s →
    (set s p.1 p.2).toOption = (aim p).map fun target => put s target.1 target.2
  kept {s : σ} (i : Nat) (value? : Option Value) : I s → I (put s i value?)
  seen_put {s : σ} (i : Nat) (value? : Option Value) : I s →
    seen (put s i value?) = put (seen s) i (value?.bind (places i))
  again (s : σ) (i : Nat) (value? value?' : Option Value) : put (put s i value?) i value?' = put s i value?'
  apart (s : σ) {i j : Nat} (hne : i ≠ j) (value? value?' : Option Value) :
    put (put s i value?) j value?' = put (put s j value?') i value?

section

variable {σ : Type} {I : σ → Prop} {places : Nat → Value → Option Value} {seen : σ → σ}
  {set : σ → String → String → Except ModelError σ} {aim : String × String → Option (Nat × Option Value)}
  {put : σ → Nat → Option Value → σ}

def setGiven {σ : Type} (set : σ → String → String → Except ModelError σ) (s : σ) (p : String × String) : Except XmlError σ :=
  (set s p.1 p.2).mapError .model

/-- What setting a field comes to, in a document or a record: a failure, or something put in a place. -/
theorem Fills.set_cases (h : Fills I places seen set aim put) (p : String × String) :
    (aim p = none ∧ ∀ s, I s → ∃ e, setGiven set s p = .error e) ∨
    ∃ i v, aim p = some (i, v) ∧ ∀ s, I s → setGiven set s p = .ok (put s i v) := by
  rcases haim : aim p with _ | ⟨i, v⟩
  · refine .inl ⟨rfl, fun s hi => ?_⟩
    have hset := h.set_eq p hi
    rw [haim, Option.map_none] at hset
    cases hx : set s p.1 p.2 with
    | error e => exact ⟨.model e, by rw [setGiven, hx]; rfl⟩
    | ok t =>
      rw [hx] at hset
      cases hset
  · refine .inr ⟨i, v, rfl, fun s hi => ?_⟩
    have hset := h.set_eq p hi
    rw [haim, Option.map_some] at hset
    exact Outcome.mapError_eq_ok.mpr (Outcome.toOption_eq_some.mp hset)

/-- Fields can be set in any order where no two values that look different are given for one. -/
theorem Fills.orderless (h : Fills I places seen set aim put) : Orderless I seen (setGiven set) (Agree places aim) where
  kept := by
    intro s s' p hi hok
    rcases h.set_cases p with ⟨-, hfails⟩ | ⟨i, v, -, hput⟩
    · obtain ⟨e, he⟩ := hfails s hi
      rw [he] at hok
      cases hok
    · rw [hput s hi] at hok
      cases hok
      exact h.kept i v hi
  same := by
    intro s s' p hi hi' hs
    rcases h.set_cases p with ⟨-, hfails⟩ | ⟨i, v, -, hput⟩
    · obtain ⟨e, he⟩ := hfails s hi
      obtain ⟨e', he'⟩ := hfails s' hi'
      rw [he, he']
      exact alike_error e e'
    · rw [hput s hi, hput s' hi']
      exact alike_ok.mpr (by rw [h.seen_put i v hi, h.seen_put i v hi', hs])
  swap := by
    intro s p q hi hagree
    -- a name that fails does so in either place, and two that are put somewhere are put in one place or in two
    rcases h.set_cases p with ⟨-, hp⟩ | ⟨i, v, hpt, hp⟩
    · obtain ⟨e, he⟩ := hp s hi
      rcases h.set_cases q with ⟨-, hq⟩ | ⟨j, w, -, hq⟩
      · obtain ⟨e', he'⟩ := hq s hi
        rw [he, he']
        exact alike_error e e'
      · obtain ⟨e', he'⟩ := hp _ (h.kept j w hi)
        rw [he, hq s hi]
        simp only [Except.bind, he']
        exact alike_error e e'
    · rcases h.set_cases q with ⟨-, hq⟩ | ⟨j, w, hqt, hq⟩
      · obtain ⟨e, he⟩ := hq s hi
        obtain ⟨e', he'⟩ := hq _ (h.kept i v hi)
        rw [he, hp s hi]
        simp only [Except.bind, he']
        exact alike_error e' e
      · rw [hp s hi, hq s hi]
        simp only [Except.bind, hp _ (h.kept j w hi), hq _ (h.kept i v hi)]
        refine alike_ok.mpr ?_
        by_cases hij : i = j
        · subst hij
          rw [h.again, h.again, h.seen_put i w hi, h.seen_put i v hi, hagree i v w hpt hqt]
        · rw [h.apart s hij]

/-! ## Attributes -/

/-- What an attribute gives, unless it says nothing of its own. -/
def fieldKind (h : Head) (a : Attribute) : Except XmlError (Option (String × String)) :=
  if a.ns.isSome then .error (unexpectedAttribute h a)
  else if isAdvisory a then .ok none
  else .ok (some (given a))

theorem applyAttributes_eq (h : Head) (s : σ) :
    applyAttributes set h s = h.attributes.foldlM (stepFor (fieldKind h) (setGiven set)) s := by
  rw [applyAttributes]
  congr 1
  funext s a
  rw [stepFor, fieldKind]
  split
  · rfl
  split
  · rfl
  · rfl

theorem fieldKind_eq_some {h : Head} {a : Attribute} {p : String × String} (hk : fieldKind h a = .ok (some p)) :
    isAdvisory a = false ∧ p = given a := by
  unfold fieldKind at hk
  split at hk
  · cases hk
  split at hk
  · cases hk
  · rename_i hadvisory
    cases hk
    exact ⟨by simpa using hadvisory, rfl⟩

/-- The attributes of a tag in another order, for states that look the same. -/
theorem applyAttributes_alike (h : Fills I places seen set aim put) (hr : head.Reordered head')
    (hsettled : Settled places aim head) {s s' : σ} (hi : I s) (hi' : I s') (hs : seen s = seen s') :
    Alike seen (applyAttributes set head s) (applyAttributes set head' s') := by
  have hkind : fieldKind head' = fieldKind head := by
    funext a
    simp only [fieldKind, unexpectedAttribute_eq hr]
  rw [applyAttributes_eq, applyAttributes_eq, hkind]
  refine h.orderless.stepFor.foldlM_perm hr.attributes ?_ hi hi' hs
  intro a ha b hb p q hp hq
  obtain ⟨hadvisory, rfl⟩ := fieldKind_eq_some hp
  obtain ⟨hadvisory', rfl⟩ := fieldKind_eq_some hq
  exact hsettled a ha b hb hadvisory hadvisory'

end

theorem checkAdvisory_eq_ok {h : Head} :
    checkAdvisory h = .ok () ↔ ∀ a ∈ h.attributes, ¬ (a.ns.isSome || !isAdvisory a) = true := by
  rw [← List.find?_eq_none, checkAdvisory]
  cases h.attributes.find? fun a => a.ns.isSome || !isAdvisory a <;> simp

theorem checkAdvisory_alike (hr : head.Reordered head') : Alike id (checkAdvisory head) (checkAdvisory head') := by
  refine Outcome.alike_of_ok_iff ?_
  rw [checkAdvisory_eq_ok, checkAdvisory_eq_ok]
  exact forall_congr' fun a => by rw [hr.attributes.mem_iff]

/-! ## Segments and records -/

/-- Documents of a message type in which a segment is of a type. -/
def HasType (m : MessageType) (id : Nat) (type : SegmentType) (d : Document) : Prop :=
  d.schema = m ∧ ∃ s, d.segment? id = some s ∧ s.type = type

/-- Where in a segment what a wire string means for a name is put. -/
def fieldAim (m : MessageType) (type : SegmentType) : String × String → Option (Nat × Option Value) :=
  target? (type.fieldIndex? m.ns) (type.fields[·]?)

/-- The fields of a segment are filled from wire strings. -/
theorem segment_fills (m : MessageType) (id : Nat) (type : SegmentType) (view : View SegmentType) :
    Fills (HasType m id type) (view type) (Document.seen view) (fun d name text => d.setWire id name text)
      (fieldAim m type) (fun d i value? => d.putField id i value?) where
  set_eq := by
    rintro d p ⟨rfl, s, hs, rfl⟩
    simp only [Document.setWire, Document.changeField, hs, fieldAim, target?, Segment.resolve]
    rcases s.type.fieldIndex? d.schema.ns p.1 with _ | i
    · rfl
    · rcases hdecl : s.type.fields[i]? with _ | decl
      · simp only [hdecl, Option.bind_some, Option.bind_none]
        rfl
      · simp only [hdecl, Option.bind_some]
        cases decl.acceptWire p.2 with
        | error e => rfl
        | ok value? =>
          simp only [Outcome.map_ok, Except.toOption, Option.map_some, Document.putFields_eq_putField hs]
  kept := by
    rintro d i value? ⟨rfl, s, hs, rfl⟩
    exact ⟨rfl, _, (Document.segment?_putField d id i id value?).trans (congrArg (Option.map _) hs), rfl⟩
  seen_put := by
    rintro d i value? ⟨-, s, hs, rfl⟩
    exact Document.seen_putField hs i value?
  again d i := d.putField_again id i
  apart d _ _ hne := d.putField_apart id hne

/-- Records of a function that have a shape. -/
def HasShape (f : Function) (shape : Shape) (r : Record) : Prop := r.function = f ∧ r.shape = shape

/-- Where in a record what a wire string means for a name is put. -/
def memberAim (own : Option String) (shape : Shape) : String × String → Option (Nat × Option Value) :=
  target? (shape.memberIndex? own) fun i => (shape.members[i]?).bind Member.field?

/-- The scalar members of a record are filled from wire strings. -/
theorem record_fills (f : Function) (shape : Shape) (view : View Shape) :
    Fills (HasShape f shape) (view shape) (Record.seen view) Record.setWire (memberAim f.ns shape)
      (fun r i value? => r.putSlot i (Record.scalarSlot value?)) where
  set_eq := by
    rintro r p ⟨rfl, rfl⟩
    simp only [Record.setWire, Record.changeField, Record.resolveField, Record.resolve, memberAim, target?, Record.ns]
    rcases r.shape.memberIndex? r.function.ns p.1 with _ | i
    · rfl
    · rcases hm : r.shape.members[i]? with _ | m
      · simp only [hm, Option.bind_some, Option.bind_none]
        rfl
      · simp only [hm, Option.bind_some]
        cases m with
        | nested _ _ _ => rfl
        | table _ _ _ => rfl
        | field decl =>
          simp only [Member.field?, Option.bind_some]
          rcases decl.acceptWire p.2 with e | _ | v <;> rfl
  kept i value? h := h
  seen_put := by
    rintro r i value? ⟨-, rfl⟩
    rw [Record.seen_putSlot, Record.seenSlot_scalarSlot]
  again r i _ _ := r.putSlot_again i _ _
  apart r _ _ hne _ _ := r.putSlot_apart hne _ _

end DocWire.Xml
