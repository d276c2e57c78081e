/-
  DocWire.Proofs.Document.Locality — what an edit changes, and that it changes nothing else.

  A field is asked for by name, and several names may mean one field: in a namespace of its own, a local name and the
  qualified one. So what a change shows under a name is told by the declared field that the name means (`field?`). Behind
  a change of a field, all the names that mean it show the new value, and all others what they showed before, the names
  that mean no field included (`FieldChanged`). The reason is that declared names are distinct, so that a declared field
  has one place among the values. A new child is the last of its parent and the last of the document (`ChildAdded`);
  it takes the number that follows all others, so that no number changes its meaning.

  - `edits_local`: an edit of any document that comes about fails and changes nothing, or does just what it is for. Over
    any run of edits the segments keep their types, parents and levels, children are only added behind the others, and a
    field that none of the edits is of keeps its value.
-/

import DocWire.Proofs.Document.InPlace

namespace DocWire

namespace Segment

variable {s : Segment} {own : Option String}

/-- A name means a declared field, which has its place, or it is refused. -/
theorem resolve_cases (s : Segment) (own : Option String) (name : String) :
    (∃ i decl, s.resolve own name = .ok (i, decl) ∧ s.type.field? own name = some decl) ∨
    (s.resolve own name = .error (.unknownField s.type.name name) ∧ s.type.field? own name = none) := by
  cases hindex : s.type.fieldIndex? own name with
  | none => exact .inr (by simp only [resolve, SegmentType.field?, hindex, Option.bind_none, and_self])
  | some i =>
    cases hdecl : s.type.fields[i]? with
    | none => exact .inr (by simp only [resolve, SegmentType.field?, hindex, hdecl, Option.bind_some, and_self])
    | some decl =>
      exact .inl ⟨i, decl, by simp only [resolve, SegmentType.field?, hindex, hdecl, Option.bind_some, and_self]⟩

theorem field?_of_resolve {name : String} {i : Nat} {decl : FieldDecl} (h : s.resolve own name = .ok (i, decl)) :
    s.type.field? own name = some decl := by
  rcases resolve_cases s own name with ⟨j, decl', hr, hf⟩ | ⟨hr, -⟩
  · rw [h] at hr
    cases hr
    exact hf
  · rw [h] at hr
    cases hr

/-- A declared field has one place, whatever name it is asked for by. -/
theorem place_unique (hn : (s.type.fields.map (·.name)).Nodup) {a b : String} {i j : Nat} {decl : FieldDecl}
    (ha : s.resolve own a = .ok (i, decl)) (hb : s.resolve own b = .ok (j, decl)) : i = j := by
  obtain ⟨hi, hid⟩ := List.getElem?_eq_some_iff.mp (resolve_eq_ok ha)
  obtain ⟨hj, hjd⟩ := List.getElem?_eq_some_iff.mp (resolve_eq_ok hb)
  exact (hn.of_map _).getElem_inj_iff.mp (hid.trans hjd.symm)

theorem get_of_resolve {name : String} {i : Nat} {decl : FieldDecl} (h : s.resolve own name = .ok (i, decl)) :
    s.get own name = .ok (s.fields[i]?).join := by
  rw [get, h, Outcome.map_ok]

/-- Behind the change of a field, every name that means it shows the new value, and every other what it showed before. -/
theorem get_set (hn : (s.type.fields.map (·.name)).Nodup) (hlen : s.fields.length = s.type.fields.length) {a : String}
    {i : Nat} {decl : FieldDecl} (ha : s.resolve own a = .ok (i, decl)) (value? : Option Value) (b : String) :
    ({ s with fields := s.fields.set i value? } : Segment).get own b =
      if s.type.field? own b = s.type.field? own a then .ok value? else s.get own b := by
  have hi : i < s.fields.length := by
    obtain ⟨hi, -⟩ := List.getElem?_eq_some_iff.mp (resolve_eq_ok ha)
    omega
  rw [field?_of_resolve ha]
  rcases resolve_cases s own b with ⟨j, decl', hb, hfield⟩ | ⟨hb, hfield⟩
  · have hget : ({ s with fields := s.fields.set i value? } : Segment).get own b =
        .ok ((s.fields.set i value?)[j]?).join := get_of_resolve hb
    simp only [hget, hfield, Option.some_inj, List.getElem?_set]
    by_cases hd : decl' = decl
    · subst hd
      rw [if_pos (place_unique hn ha hb), if_pos rfl, if_pos hi, Option.join_some]
    · have hne : i ≠ j := by
        rintro rfl
        have hsame := (resolve_eq_ok hb).symm.trans (resolve_eq_ok ha)
        exact hd (Option.some.inj hsame)
      rw [if_neg hne, if_neg hd, get_of_resolve hb]
  · have hget : ({ s with fields := s.fields.set i value? } : Segment).get own b = s.get own b := by
      show (s.resolve own b).map _ = (s.resolve own b).map _
      rw [hb]
      rfl
    rw [hget, hfield, if_neg (Option.some_ne_none _).symm]

end Segment

namespace Document

variable {d d' : Document} {id : Nat} {s : Segment}

/-- The declared field that a name means in a segment. -/
def field? (d : Document) (id : Nat) (name : String) : Option FieldDecl :=
  (d.segment? id).bind fun s => s.type.field? d.schema.ns name

/-- The child slot that a name means in a segment. -/
def slot? (d : Document) (id : Nat) (name : String) : Option ChildSlot :=
  (d.segment? id).bind fun s => s.type.child? d.schema.ns name

theorem field?_eq (hs : d.segment? id = some s) (name : String) : d.field? id name = s.type.field? d.schema.ns name := by
  rw [field?, hs, Option.bind_some]

theorem slot?_eq (hs : d.segment? id = some s) (name : String) : d.slot? id name = s.type.child? d.schema.ns name := by
  rw [slot?, hs, Option.bind_some]

theorem get_eq (hs : d.segment? id = some s) (name : String) : d.get id name = s.get d.schema.ns name := by
  simp only [Document.get, hs]

theorem childrenOfType_eq {name : String} {slot : ChildSlot} (hs : d.segment? id = some s)
    (hslot : d.slot? id name = some slot) : d.childrenOfType id name = .ok (d.childrenNamed s slot.segmentType) := by
  rw [slot?_eq hs] at hslot
  simp only [childrenOfType, hs, hslot]

/-- A segment that keeps its type, with the same children under every type, shows the same under every name. -/
theorem childrenOfType_kept {i : Nat} {s s' : Segment} (hs : d.segment? i = some s) (hs' : d'.segment? i = some s')
    (hschema : d'.schema = d.schema) (htype : s'.type = s.type)
    (hnamed : ∀ name, d'.childrenNamed s' name = d.childrenNamed s name) (b : String) :
    d'.childrenOfType i b = d.childrenOfType i b := by
  simp only [childrenOfType, hs, hs', hschema, htype, hnamed]

/-! ## What one edit does -/

/-- The field that `a` means in the segment `id` has become `value?`, and nothing else has changed. -/
structure FieldChanged (d : Document) (id : Nat) (a : String) (value? : Option Value) (d' : Document) : Prop where
  /-- Of the segment, one field has changed, the declared one that `a` means. -/
  place : ∃ s i decl, d.segment? id = some s ∧ d.field? id a = some decl ∧ s.type.fields[i]? = some decl ∧
    d'.segment? id = some { s with fields := s.fields.set i value? }
  named : ∀ b, d.field? id b = d.field? id a → d'.get id b = .ok value?
  unnamed : ∀ b, d.field? id b ≠ d.field? id a → d'.get id b = d.get id b
  elsewhere : ∀ i, i ≠ id → d'.segment? i = d.segment? i
  listed : ∀ i b, d'.childrenOfType i b = d.childrenOfType i b
  count : d'.segmentCount = d.segmentCount
  record : d'.schema = d.schema ∧ d'.header = d.header ∧ d'.creation = d.creation

/-- The segment `id` has a new child, of the type that `a` means there, and nothing else has changed. -/
structure ChildAdded (d : Document) (id : Nat) (a : String) (d' : Document) : Prop where
  /-- The new child is the last, under the number that no segment had; it has no values and no children. -/
  added : ∃ s slot type, d.segment? id = some s ∧ d.schema.childOf? s.type a = some (slot, type) ∧
    d'.segment? id = some { s with children := s.children ++ [d.segmentCount] } ∧
    d'.segment? d.segmentCount = some (.blank type (some id) (s.level + 1))
  count : d'.segmentCount = d.segmentCount + 1
  elsewhere : ∀ i, i < d.segmentCount → i ≠ id → d'.segment? i = d.segment? i
  values : ∀ i, i < d.segmentCount → ∀ b, d'.get i b = d.get i b
  /-- Under every name of its type the new child follows the former ones. -/
  named : ∀ b, d.slot? id b = d.slot? id a →
    ∃ before, d.childrenOfType id b = .ok before ∧ d'.childrenOfType id b = .ok (before ++ [d.segmentCount])
  unnamed : ∀ i b, i < d.segmentCount → i ≠ id ∨ d.slot? id b ≠ d.slot? id a →
    d'.childrenOfType i b = d.childrenOfType i b
  record : d'.schema = d.schema ∧ d'.header = d.header ∧ d'.creation = d.creation

theorem segment?_putFields_self (hs : d.segment? id = some s) (fields : List (Option Value)) :
    (d.putFields id fields).segment? id = some { s with fields := fields } := by
  rw [segment?_putFields, hs, Option.map_some, if_pos rfl]

theorem segment?_putFields_ne {i : Nat} (hi : i ≠ id) (fields : List (Option Value)) :
    (d.putFields id fields).segment? i = d.segment? i := by
  simp only [segment?_putFields, if_neg hi]
  exact Option.map_id'

theorem childrenOfType_putFields (i : Nat) (fields : List (Option Value)) (b : String) :
    (d.putFields id fields).childrenOfType i b = d.childrenOfType i b := by
  cases hs : d.segment? i with
  | none =>
    have hs' : (d.putFields id fields).segment? i = none := by rw [segment?_putFields, hs, Option.map_none]
    simp only [childrenOfType, hs, hs']
  | some s =>
    have hs' : (d.putFields id fields).segment? i = some { s with fields := if i = id then fields else s.fields } := by
      rw [segment?_putFields, hs, Option.map_some]
    refine childrenOfType_kept hs hs' rfl rfl (fun name => ?_) b
    rw [childrenNamed_putFields]
    rfl

theorem Sound.putField_changed (hm : d.schema.Resolved) (h : d.Sound) (hs : d.segment? id = some s) {a : String} {i : Nat}
    {decl : FieldDecl} (ha : s.resolve d.schema.ns a = .ok (i, decl)) (value? : Option Value) :
    d.FieldChanged id a value? (d.putFields id (s.fields.set i value?)) := by
  have hself := segment?_putFields_self hs (s.fields.set i value?)
  have hget : ∀ b, (d.putFields id (s.fields.set i value?)).get id b =
      if d.field? id b = d.field? id a then .ok value? else d.get id b := by
    intro b
    rw [get_eq hself, get_eq hs, field?_eq hs, field?_eq hs]
    exact Segment.get_set (hm.fields s.type (h.types id s hs)) (h.filled id s hs).1 ha value? b
  have hdecl : d.field? id a = some decl := (field?_eq hs a).trans (Segment.field?_of_resolve ha)
  refine ⟨⟨s, i, decl, hs, hdecl, Segment.resolve_eq_ok ha, hself⟩, fun b hb => ?_, fun b hb => ?_,
    fun i hi => segment?_putFields_ne hi _, fun i b => childrenOfType_putFields i _ b, segmentCount_putFields, rfl, rfl, rfl⟩
  · rw [hget, if_pos hb]
  · rw [hget, if_neg hb]

theorem Sound.changeField_changed (hm : d.schema.Resolved) (h : d.Sound) {a : String}
    {change : FieldDecl → Except ModelError (Option Value)} (hok : d.changeField id a change = .ok d') :
    ∃ decl value?, d.field? id a = some decl ∧ change decl = .ok value? ∧ d.FieldChanged id a value? d' := by
  obtain ⟨s, i, decl, value?, hs, ha, hv, rfl⟩ := changeField_resolved hok
  refine ⟨decl, value?, ?_, hv, h.putField_changed hm hs ha value?⟩
  rw [field?_eq hs, Segment.field?_of_resolve ha]

theorem slot?_of_childOf? {a : String} {slot : ChildSlot} {type : SegmentType} (hs : d.segment? id = some s)
    (hc : d.schema.childOf? s.type a = some (slot, type)) : d.slot? id a = some slot := by
  obtain ⟨found, hfound, htype⟩ := Option.bind_eq_some_iff.mp hc
  obtain ⟨u, -, he⟩ := Option.map_eq_some_iff.mp htype
  cases he
  rw [slot?_eq hs, hfound]

theorem mem_of_slot? {a : String} {slot : ChildSlot} (hs : d.segment? id = some s) (h : d.slot? id a = some slot) :
    slot ∈ s.type.children := by
  rw [slot?_eq hs] at h
  obtain ⟨i, -, hi⟩ := Option.bind_eq_some_iff.mp h
  exact List.mem_of_getElem? hi

section Append

variable {type : SegmentType}

theorem segment?_append_self (hs : d.segment? id = some s) :
    (d.append id s type).segment? id = some { s with children := s.children ++ [d.segmentCount] } := by
  rw [segment?_append_kept hs, if_pos rfl]

theorem segment?_append_ne {i : Nat} (hi : i < d.segmentCount) (hne : i ≠ id) :
    (d.append id s type).segment? i = d.segment? i := by
  simp only [segment?_append_old hi, if_neg hne]
  exact Option.map_id'

/-- The values of a segment that was there are the same under every name. -/
theorem get_append {i : Nat} (hi : i < d.segmentCount) (b : String) : (d.append id s type).get i b = d.get i b := by
  obtain ⟨t, ht⟩ := exists_segment hi
  rw [get_eq ht, get_eq (segment?_append_kept ht)]
  rfl

/-- The children of the parent under a slot: the former ones, and behind them the new one where it is of the type. -/
theorem Sound.childrenOfType_append (h : d.Sound) (hs : d.segment? id = some s) {b : String} {slot : ChildSlot}
    (hslot : d.slot? id b = some slot) : (d.append id s type).childrenOfType id b =
      .ok (d.childrenNamed s slot.segmentType ++ if type.name = slot.segmentType then [d.segmentCount] else []) := by
  have hself : (d.append id s type).segment? id = some { s with children := s.children ++ [d.segmentCount] } :=
    segment?_append_self hs
  have hslot' : (d.append id s type).slot? id b = some slot := by
    rw [slot?_eq hself]
    rw [slot?_eq hs] at hslot
    exact hslot
  rw [childrenOfType_eq hself hslot', childrenNamed_append_self (segment?_lt hs) fun c hc => h.child_lt hs hc]

theorem Sound.childrenOfType_append_ne (hm : d.schema.Resolved) (h : d.Sound) (hs : d.segment? id = some s) {a b : String}
    {slot : ChildSlot} (hslot : d.slot? id a = some slot) (hname : type.name = slot.segmentType)
    (hne : d.slot? id b ≠ d.slot? id a) : (d.append id s type).childrenOfType id b = d.childrenOfType id b := by
  cases hb : d.slot? id b with
  | none =>
    rw [slot?_eq hs] at hb
    have hbehind : s.type.child? (d.append id s type).schema.ns b = none := hb
    simp only [childrenOfType, segment?_append_self hs, hs, hb, hbehind]
  | some other =>
    rw [h.childrenOfType_append hs hb, childrenOfType_eq hs hb, if_neg, List.append_nil]
    intro he
    have hsame := List.inj_on_of_nodup_map (hm.children s.type (h.types id s hs)) (mem_of_slot? hs hb)
      (mem_of_slot? hs hslot) (he.symm.trans hname)
    exact hne (hb.trans (hsame ▸ hslot.symm))

end Append

theorem Sound.addChild_added (hm : d.schema.Resolved) (h : d.Sound) {a : String} {new : Nat}
    (hok : d.addChild id a = .ok (d', new)) : new = d.segmentCount ∧ d.ChildAdded id a d' := by
  obtain ⟨s, slot, type, hs, hc, -, rfl, rfl⟩ := addChild_eq_ok hok
  have hslot := slot?_of_childOf? hs hc
  obtain ⟨-, -, hname, -⟩ := hm.childOf?_some (h.types id s hs) hc
  refine ⟨rfl, ⟨s, slot, type, hs, hc, segment?_append_self hs, segment?_append_new (segment?_lt hs)⟩,
    segmentCount_append, fun i hi hne => segment?_append_ne hi hne, fun i hi b => get_append hi b, fun b hb => ?_,
    fun i b hi hother => ?_, rfl, rfl, rfl⟩
  · have hslot' : d.slot? id b = some slot := hb.trans hslot
    refine ⟨_, childrenOfType_eq hs hslot', ?_⟩
    rw [h.childrenOfType_append hs hslot', if_pos hname]
  · by_cases hi' : i = id
    · subst hi'
      exact h.childrenOfType_append_ne hm hs hslot hname (hother.resolve_left fun hne => hne rfl)
    · obtain ⟨t, ht⟩ := exists_segment hi
      refine childrenOfType_kept ht ((segment?_append_ne hi hi').trans ht) rfl rfl (fun name => ?_) b
      exact childrenNamed_append_old fun c hc => h.child_lt ht hc

/-- What an edit has done that succeeded, and what it was answered with. -/
def Effect (d : Document) : Edit → Answer → Document → Prop
  | .setHeader _ _, answer, d' => answer = .done ∧ d'.schema = d.schema ∧ d'.segments = d.segments
  | .unsetHeader _, answer, d' => answer = .done ∧ d'.schema = d.schema ∧ d'.segments = d.segments
  | .set id a value, answer, d' => answer = .done ∧ d.FieldChanged id a (some value) d'
  | .setWire id a text, answer, d' => answer = .done ∧ ∃ decl value?, d.field? id a = some decl ∧
      Coercion.decodeWire decl.format text = .ok value? ∧ d.FieldChanged id a value? d'
  | .unset id a, answer, d' => (∃ former, d.get id a = .ok former ∧ answer = .former former) ∧
      d.FieldChanged id a none d'
  | .addChild id a, answer, d' => answer = .added d.segmentCount ∧ d.ChildAdded id a d'

/-- A change of a field that succeeds finds a value of it, set or not. -/
theorem exists_get {name : String} {change : FieldDecl → Except ModelError (Option Value)}
    (h : d.changeField id name change = .ok d') : ∃ former, d.get id name = .ok former := by
  obtain ⟨s, i, decl, -, hs, hr, -, -⟩ := changeField_resolved h
  exact ⟨_, (get_eq hs name).trans (Segment.get_of_resolve hr)⟩

theorem Sound.effect (hm : d.schema.Resolved) (h : d.Sound) {e : Edit} (hok : d.attempt e = .ok d') :
    d.Effect e (d.answer e) d' := by
  cases e with
  | setHeader field value =>
    cases hok
    exact ⟨rfl, rfl, rfl⟩
  | unsetHeader field =>
    cases hok
    exact ⟨rfl, rfl, rfl⟩
  | set id a value =>
    obtain ⟨decl, value?, -, haccept, hchanged⟩ := h.changeField_changed hm hok
    unfold FieldDecl.accept at haccept
    split at haccept
    · cases haccept
      exact ⟨rfl, hchanged⟩
    · cases haccept
  | setWire id a text =>
    obtain ⟨decl, value?, hdecl, haccept, hchanged⟩ := h.changeField_changed hm hok
    exact ⟨rfl, decl, value?, hdecl, Outcome.mapError_eq_ok.mp haccept, hchanged⟩
  | unset id a =>
    obtain ⟨decl, value?, -, hnone, hchanged⟩ := h.changeField_changed hm hok
    obtain ⟨former, hformer⟩ := exists_get hok
    cases hnone
    exact ⟨⟨former, hformer, by rw [answer, hformer]; rfl⟩, hchanged⟩
  | addChild id a =>
    obtain ⟨⟨d₁, new⟩, hadd, rfl⟩ := Outcome.map_eq_ok.mp hok
    exact ⟨rfl, (h.addChild_added hm hadd).2⟩

/-! ## Runs of edits -/

/-- The segments that were there are still there: of their types, under their parents and at their levels, and with
their children, behind which others may have come. -/
def Continues (d d' : Document) : Prop :=
  d'.schema = d.schema ∧ ∀ i s, d.segment? i = some s → ∃ s', d'.segment? i = some s' ∧
    s'.type = s.type ∧ s'.parent = s.parent ∧ s'.level = s.level ∧ s.children <+: s'.children

theorem Continues.refl (d : Document) : d.Continues d :=
  ⟨rfl, fun _ s hs => ⟨s, hs, rfl, rfl, rfl, List.prefix_rfl⟩⟩

theorem Continues.trans {d₁ d₂ d₃ : Document} (h : d₁.Continues d₂) (h' : d₂.Continues d₃) : d₁.Continues d₃ := by
  refine ⟨h'.1.trans h.1, fun i s hs => ?_⟩
  obtain ⟨s₂, hs₂, htype, hparent, hlevel, hchildren⟩ := h.2 i s hs
  obtain ⟨s₃, hs₃, htype', hparent', hlevel', hchildren'⟩ := h'.2 i s₂ hs₂
  exact ⟨s₃, hs₃, htype'.trans htype, hparent'.trans hparent, hlevel'.trans hlevel, hchildren.trans hchildren'⟩

theorem continues_putFields (id : Nat) (fields : List (Option Value)) : d.Continues (d.putFields id fields) := by
  refine ⟨rfl, fun i s hs => ?_⟩
  rw [segment?_putFields, hs]
  exact ⟨_, rfl, rfl, rfl, rfl, List.prefix_rfl⟩

theorem continues_append (id : Nat) (s : Segment) (type : SegmentType) : d.Continues (d.append id s type) := by
  refine ⟨rfl, fun i t ht => ⟨_, segment?_append_kept ht, rfl, rfl, rfl, ?_⟩⟩
  show t.children <+: if i = id then t.children ++ [d.segmentCount] else t.children
  split
  · exact List.prefix_append _ _
  · exact List.prefix_rfl

theorem continues_edit (e : Edit) : d.Continues (d.edit e) := by
  have hchange : ∀ {id name change d'}, d.changeField id name change = .ok d' → d.Continues d' := by
    intro id name change d' hok
    obtain ⟨s, i, decl, value?, -, -, -, rfl⟩ := changeField_eq_ok hok
    exact continues_putFields id _
  unfold edit
  cases hok : d.attempt e with
  | error cause => exact .refl d
  | ok d' =>
    cases e with
    | setHeader field value =>
      cases hok
      exact .refl d
    | unsetHeader field =>
      cases hok
      exact .refl d
    | set id name value => exact hchange hok
    | setWire id name text => exact hchange hok
    | unset id name => exact hchange hok
    | addChild id name =>
      obtain ⟨⟨d₁, new⟩, hadd, rfl⟩ := Outcome.map_eq_ok.mp hok
      obtain ⟨s, slot, type, -, -, -, rfl, -⟩ := addChild_eq_ok hadd
      exact continues_append id s type

theorem continues_edits (es : List Edit) : d.Continues (es.foldl edit d) := by
  induction es generalizing d with
  | nil => exact .refl d
  | cons e rest ih => exact (continues_edit e).trans ih

/-- The edit is of the field that `name` means in the segment `id`, by whatever name. -/
def IsOf (d : Document) (id : Nat) (name : String) : Edit → Prop
  | .set i a _ => i = id ∧ d.field? id a = d.field? id name
  | .setWire i a _ => i = id ∧ d.field? id a = d.field? id name
  | .unset i a => i = id ∧ d.field? id a = d.field? id name
  | _ => False

theorem FieldChanged.get_other {a : String} {value? : Option Value} (h : d.FieldChanged id a value? d') {i : Nat}
    {b : String} (hother : ¬ (id = i ∧ d.field? i a = d.field? i b)) : d'.get i b = d.get i b := by
  by_cases hi : id = i
  · subst hi
    exact h.unnamed b fun he => hother ⟨rfl, he.symm⟩
  · unfold Document.get
    rw [h.elsewhere i (Ne.symm hi), h.record.1]

/-- An edit of another field does not change what a name shows. -/
theorem Effect.get_other {e : Edit} {answer : Answer} (h : d.Effect e answer d') {i : Nat} {b : String}
    (hi : i < d.segmentCount) (hother : ¬ d.IsOf i b e) : d'.get i b = d.get i b := by
  cases e with
  | setHeader field value => simp only [Document.get, segment?, h.2.1, h.2.2]
  | unsetHeader field => simp only [Document.get, segment?, h.2.1, h.2.2]
  | set id a value => exact h.2.get_other hother
  | setWire id a text =>
    obtain ⟨-, decl, value?, -, -, hchanged⟩ := h
    exact hchanged.get_other hother
  | unset id a => exact h.2.get_other hother
  | addChild id a => exact h.2.values i hi b

theorem Sound.get_edit (hm : d.schema.Resolved) (h : d.Sound) {e : Edit} {i : Nat} {b : String} (hi : i < d.segmentCount)
    (hother : ¬ d.IsOf i b e) : (d.edit e).get i b = d.get i b := by
  unfold Document.edit
  cases hok : d.attempt e with
  | error cause => rfl
  | ok d' => exact (h.effect hm hok).get_other hi hother

theorem Continues.isOf_iff (h : d.Continues d') {i : Nat} (hi : i < d.segmentCount) {b : String} {e : Edit} :
    d'.IsOf i b e ↔ d.IsOf i b e := by
  obtain ⟨s, hs⟩ := exists_segment hi
  obtain ⟨s', hs', htype, -⟩ := h.2 i s hs
  have hfield : ∀ a, d'.field? i a = d.field? i a := by
    intro a
    rw [field?_eq hs, field?_eq hs', htype, h.1]
  cases e <;> simp only [IsOf, hfield]

/-- A field that no edit of a run is of keeps its value. -/
theorem Sound.get_edits (hm : d.schema.Resolved) (h : d.Sound) {i : Nat} {b : String} (hi : i < d.segmentCount)
    (es : List Edit) (hother : ∀ e ∈ es, ¬ d.IsOf i b e) : (es.foldl Document.edit d).get i b = d.get i b := by
  induction es generalizing d with
  | nil => rfl
  | cons e rest ih =>
    obtain ⟨hschema, hsound⟩ := h.edit hm e
    have hcontinues := continues_edit (d := d) e
    obtain ⟨s, hs⟩ := exists_segment hi
    obtain ⟨s', hs', -⟩ := hcontinues.2 i s hs
    have hrest : ∀ e' ∈ rest, ¬ (d.edit e).IsOf i b e' := by
      intro e' he'
      rw [hcontinues.isOf_iff hi]
      exact hother e' (List.mem_cons_of_mem _ he')
    rw [List.foldl_cons, ih (hschema ▸ hm) hsound (segment?_lt hs') hrest]
    exact h.get_edit hm hi (hother e List.mem_cons_self)

/-- Edits are local, and names that mean one field are one. In every document that comes about under a compiled registry
an edit that fails changes nothing, and one that succeeds does what it is for and leaves the rest as it was. Behind any
run of edits every number means the segment that it meant. -/
theorem edits_local {schema : Definition} {r : Registry} (hr : Registry.compile schema = .ok r) (h : Reach r d) :
    (∀ e, Outcome.inPlace (perform e) d =
      match d.attempt e with
      | .ok d' => (.ok (d.answer e), d')
      | .error cause => (.error cause, d)) ∧
    (∀ e d', d.attempt e = .ok d' → d.Effect e (d.answer e) d') ∧
    ∀ es : List Edit, d.Continues (es.foldl edit d) ∧
      ∀ i b, i < d.segmentCount → (∀ e ∈ es, ¬ d.IsOf i b e) → (es.foldl edit d).get i b = d.get i b := by
  obtain ⟨hm, hsound⟩ := h.sound hr
  have hresolved := Registry.resolved hr hm
  refine ⟨perform_on, fun e d' hok => hsound.effect hresolved hok, fun es => ⟨continues_edits es, ?_⟩⟩
  intro i b hi hother
  exact hsound.get_edits hresolved hi es hother

/-- Labels with parts, which have a number of their own and one of another namespace. -/
def labelType : MessageDef :=
  { key := ⟨"R", "/BIZ/LABEL", "", "", ""⟩
    root := [{ segmentType := "/BIZ/PART" }]
    segments :=
      [{ segmentType := "/BIZ/PART", fields := [{ name := "/BIZ/NUMBER", type := .int4 }, { name := "/OTH/NUMBER", type := .int4 }] }] }

def labelSchema : MessageType := (Compile.compileMessageType labelType).toOption.get rfl

def labels : Registry := ⟨[labelSchema], [], []⟩

theorem labels_compiled : Registry.compile { messageTypes := [labelType] } = .ok labels := rfl

/-- A label with one part, whose numbers are 7 and 8. -/
def onePart : Document :=
  [.addChild 0 "PART", .setWire 1 "NUMBER" "7", .setWire 1 "/OTH/NUMBER" "8"].foldl edit
    (new labelSchema twoItems.creation)

theorem onePart_reach : Reach labels onePart := (Reach.new _ _ (List.mem_singleton.mpr rfl)).edits _

/-- The number is set by its qualified name and unset by its local one, and the other number stays; there is no room for
another part. -/
theorem edits_local_onePart :
    Registry.compile { messageTypes := [labelType] } = .ok labels ∧ Reach labels onePart ∧
      (∃ d', onePart.set 1 "/BIZ/NUMBER" (.integer 9) = .ok d' ∧ d'.get 1 "NUMBER" = .ok (some (.integer 9)) ∧
        d'.get 1 "/OTH/NUMBER" = .ok (some (.integer 8))) ∧
      (∃ d', Outcome.inPlace (perform (.unset 1 "NUMBER")) onePart = (.ok (.former (some (.integer 7))), d') ∧
        d'.get 1 "/BIZ/NUMBER" = .ok none) ∧
      ∃ cause, Outcome.inPlace (perform (.addChild 0 "PART")) onePart = (.error cause, onePart) := by
  obtain ⟨hperform, heffect, -⟩ := edits_local labels_compiled onePart_reach
  refine ⟨labels_compiled, onePart_reach, ?_, ?_, ?_⟩
  · obtain ⟨d', hok⟩ := Outcome.exists_ok (x := onePart.set 1 "/BIZ/NUMBER" (.integer 9)) (by decide +kernel)
    obtain ⟨-, hchanged⟩ := heffect (.set 1 "/BIZ/NUMBER" (.integer 9)) d' hok
    refine ⟨d', hok, hchanged.named "NUMBER" (by decide +kernel), ?_⟩
    rw [hchanged.unnamed "/OTH/NUMBER" (by decide +kernel)]
    decide +kernel
  · obtain ⟨d', hok⟩ := Outcome.exists_ok (x := onePart.unset 1 "NUMBER") (by decide +kernel)
    obtain ⟨⟨former, hformer, hanswer⟩, hchanged⟩ := heffect (.unset 1 "NUMBER") d' hok
    have hseven : onePart.get 1 "NUMBER" = .ok (some (.integer 7)) := by decide +kernel
    rw [hseven] at hformer
    cases hformer
    refine ⟨d', ?_, hchanged.named "/BIZ/NUMBER" (by decide +kernel)⟩
    have hattempt : onePart.attempt (.unset 1 "NUMBER") = .ok d' := hok
    simp only [hperform, hattempt, hanswer]
  · obtain ⟨cause, hfull⟩ := Outcome.exists_error (x := onePart.attempt (.addChild 0 "PART")) (by decide +kernel)
    exact ⟨cause, by simp only [hperform, hfull]⟩

end Document

end DocWire
