/-
  DocWire.Proofs.Xml.Unmistaken — names that are not mistaken for others in markup.

  A name with `_-` is read as another one, with `/` there. If that one is declared too, what is written under the first
  is read as if it stood under the second; if it is not, reading fails. So of all names with `_-` only the former are
  left out here (`Name.Discerned`), and where a message is read, no name in use holds `_-` (`readable_of_readSegments`,
  `readable_of_readMembers`): each is found where it is read, in the type of its segment or in the shape of its record.

  A name must also hold nothing that ends it, or its tag, or begins a value, and that of an attribute must not declare
  a prefix (`ElementName`, `AttributeName`). A field of a record must not be named as the advice that is not given there.
-/

import DocWire.Proofs.Parameters.Arise
import DocWire.Proofs.Xml.Members
import DocWire.Proofs.Xml.Segments

namespace DocWire

/-- A name that is read as itself, or as one that means none of those that are declared. -/
def Name.Discerned (own : Option String) (declared : List String) (name : String) : Prop :=
  Markless name ∨ resolve own declared (unescape (escape name)) = none

instance (own : Option String) (declared : List String) (name : String) : Decidable (Name.Discerned own declared name) :=
  inferInstanceAs (Decidable (_ ∨ _))

/-- A name that is not mistaken for another declared one where an element has it. -/
structure ElementName (own : Option String) (declared : List String) (name : String) : Prop where
  discerned : Name.Discerned own declared name
  unbroken : Markup.Unbroken (Name.escape name)

/-- A name that is not mistaken for another declared one, or for the declaration of a prefix, where an attribute has
it. -/
structure AttributeName (own : Option String) (declared : List String) (name : String) : Prop
    extends ElementName own declared name where
  undeclaring : Markup.declaredPrefix? (Name.escape name) = none

instance ElementName.decidable (own : Option String) (declared : List String) (name : String) :
    Decidable (ElementName own declared name) :=
  decidable_of_iff (Name.Discerned own declared name ∧ Markup.Unbroken (Name.escape name))
    ⟨fun h => ⟨h.1, h.2⟩, fun h => ⟨h.discerned, h.unbroken⟩⟩

instance AttributeName.decidable (own : Option String) (declared : List String) (name : String) :
    Decidable (AttributeName own declared name) :=
  decidable_of_iff (ElementName own declared name ∧ Markup.declaredPrefix? (Name.escape name) = none)
    ⟨fun h => ⟨h.1, h.2⟩, fun h => ⟨h.toElementName, h.undeclaring⟩⟩

/-- A segment none of whose set fields is mistaken for another. -/
def Segment.Unmistaken (own : Option String) (s : Segment) : Prop :=
  ∀ e ∈ s.entries, AttributeName own (s.type.fields.map (·.name)) e.1.name

instance (own : Option String) (s : Segment) : Decidable (s.Unmistaken own) :=
  inferInstanceAs (Decidable (∀ e ∈ s.entries, AttributeName own (s.type.fields.map (·.name)) e.1.name))

namespace Tree

mutual

/-- A tree of segments none of which is mistaken for another where it stands, nor any of their set fields. -/
def Unmistaken (own : Option String) (parent : SegmentType) : Tree Segment → Prop
  | .node s children =>
    ElementName own (parent.children.map (·.segmentType)) s.type.name ∧ s.Unmistaken own ∧
      AllUnmistaken own s.type children

def AllUnmistaken (own : Option String) (parent : SegmentType) : List (Tree Segment) → Prop
  | [] => True
  | t :: rest => Unmistaken own parent t ∧ AllUnmistaken own parent rest

end

mutual

def Unmistaken.decide (own : Option String) : ∀ (parent : SegmentType) (t : Tree Segment),
    Decidable (Unmistaken own parent t)
  | parent, .node s children =>
    have := AllUnmistaken.decide own s.type children
    inferInstanceAs (Decidable (ElementName own (parent.children.map (·.segmentType)) s.type.name ∧ s.Unmistaken own ∧
      AllUnmistaken own s.type children))

def AllUnmistaken.decide (own : Option String) : ∀ (parent : SegmentType) (ts : List (Tree Segment)),
    Decidable (AllUnmistaken own parent ts)
  | _, [] => isTrue trivial
  | parent, t :: rest =>
    have := Unmistaken.decide own parent t
    have := AllUnmistaken.decide own parent rest
    inferInstanceAs (Decidable (Unmistaken own parent t ∧ AllUnmistaken own parent rest))

end

instance (own : Option String) (parent : SegmentType) (ts : List (Tree Segment)) :
    Decidable (AllUnmistaken own parent ts) := AllUnmistaken.decide own parent ts

end Tree

/-- A record that is not mistaken for another: by the names of the members that are there, none of which is passed over
as the advice that is not given for records. -/
structure Record.Unmistaken (r : Record) : Prop where
  members : ∀ m ∈ r.present, ElementName r.ns (r.shape.members.map Member.name) m.name
  fields : ∀ e ∈ r.entries, AttributeName r.ns (r.shape.members.map Member.name) e.1.name ∧ e.1.name ≠ "document"

instance Record.Unmistaken.decidable (r : Record) : Decidable r.Unmistaken :=
  decidable_of_iff ((∀ m ∈ r.present, ElementName r.ns (r.shape.members.map Member.name) m.name) ∧
      ∀ e ∈ r.entries, AttributeName r.ns (r.shape.members.map Member.name) e.1.name ∧ e.1.name ≠ "document")
    ⟨fun h => ⟨h.1, h.2⟩, fun h => ⟨h.members, h.fields⟩⟩

/-- A name that means a declared one as it is read holds no `_-`. -/
theorem Name.Discerned.markless {own : Option String} {declared : List String} {name : String}
    (h : Discerned own declared name) {i : Nat} (hi : declaredIndex? own declared (unescape (escape name)) = some i) :
    Markless name := by
  rcases h with h | h
  · exact h
  · rw [declaredIndex?, h] at hi
    cases hi

namespace Xml

open Markup (AllPlain Element Head Plain Scope Written elementIn elementsIn readAs)
open Record (IsOf RowsSound SlotSound SlotsSound)

variable {scope : Scope} {pre ns docPath : String}

/-! ## Attributes -/

/-- What setting a field demands of its name holds of all attributes that are read, but for those that are passed
over. -/
theorem applyAttributes_demands {σ : Type} {I : σ → Prop} {P : String → Prop}
    {set : σ → String → String → Except ModelError σ}
    (hset : ∀ s name text s', I s → set s name text = .ok s' → I s' ∧ P name) {h : Head} {s s' : σ} (hi : I s)
    (hok : applyAttributes set h s = .ok s') : ∀ a ∈ h.attributes, isAdvisory a = false → P (Name.unescape a.name) := by
  have hstep : ∀ s a s', I s → applyAttribute set h s a = .ok s' →
      I s' ∧ (isAdvisory a = false → P (Name.unescape a.name)) := by
    intro s a s' hi hs
    unfold applyAttribute at hs
    split at hs
    · cases hs
    split at hs
    · rename_i hadvice
      cases hs
      exact ⟨hi, fun hnot => absurd (hadvice.symm.trans hnot) (by decide)⟩
    · obtain ⟨hi, hname⟩ := hset s _ _ s' hi (Outcome.mapError_eq_ok.mp hs)
      exact ⟨hi, fun _ => hname⟩
  exact Outcome.foldlM_demands hstep hi hok

/-- The fields whose names are demanded are found in what declares them, so their names hold no `_-`. -/
theorem markless_of_applyAttributes {σ : Type} {I : σ → Prop} {own : Option String} {declared : List String}
    {set : σ → String → String → Except ModelError σ}
    (hset : ∀ s name text s', I s → set s name text = .ok s' → I s' ∧ ∃ i, declaredIndex? own declared name = some i)
    {h : Head} {advice : Attributes} {entries : List (FieldDecl × Value)}
    (he : h.attributes = readAs (advice ++ entries.map attributeOf))
    (hnames : ∀ e ∈ entries, Name.Discerned own declared e.1.name)
    (hunreserved : ∀ e ∈ entries, e.1.name ≠ "parent" ∧ e.1.name ≠ "document") {s s' : σ} (hi : I s)
    (hok : applyAttributes set h s = .ok s') : ∀ e ∈ entries, Name.Markless e.1.name := by
  intro e hm
  have hattr : (⟨none, Name.escape e.1.name, wireOf e⟩ : Markup.Attribute) ∈ h.attributes := by
    rw [he, readAs]
    exact List.mem_map.mpr ⟨attributeOf e, List.mem_append_right _ (List.mem_map.mpr ⟨e, hm, rfl⟩), rfl⟩
  have hadvice : isAdvisory ⟨none, Name.escape e.1.name, wireOf e⟩ = false := by
    rw [Bool.eq_false_iff, Ne, isAdvisory_iff]
    rintro (hp | hd)
    · exact (hunreserved e hm).1 (Name.eq_of_escape (by decide) hp)
    · exact (hunreserved e hm).2 (Name.eq_of_escape (by decide) hd)
  obtain ⟨i, hfound⟩ := applyAttributes_demands hset hi hok _ hattr hadvice
  exact (hnames e hm).markless hfound

/-! ## Segments -/

/-- A document of a message type with a segment of a type under a number. -/
def Holds (m : MessageType) (id : Nat) (type : SegmentType) (d : Document) : Prop :=
  d.schema = m ∧ ∃ s, d.segment? id = some s ∧ s.type = type

variable {m : MessageType} {d d' : Document} {id : Nat} {type : SegmentType}

theorem Holds.setWire (h : Holds m id type d) {i : Nat} {name text : String} (hok : d.setWire i name text = .ok d') :
    Holds m id type d' := by
  obtain ⟨hschema, s, hs, ht⟩ := h
  obtain ⟨u, j, decl, value?, -, -, -, rfl⟩ := Document.changeField_eq_ok hok
  refine ⟨hschema, { s with fields := if id = i then u.fields.set j value? else s.fields }, ?_, ht⟩
  rw [Document.segment?_putFields, hs, Option.map_some]

theorem Holds.addChild (h : Holds m id type d) {i c : Nat} {name : String} (hok : d.addChild i name = .ok (d', c)) :
    Holds m id type d' := by
  obtain ⟨hschema, s, hs, ht⟩ := h
  obtain ⟨p, slot, u, -, -, -, rfl, -⟩ := Document.addChild_eq_ok hok
  exact ⟨hschema, _, Document.segment?_append_kept hs, ht⟩

/-- A field that is set is found in the type of its segment. -/
theorem Holds.found (h : Holds m id type d) {name text : String} (hok : d.setWire id name text = .ok d') :
    ∃ i, declaredIndex? m.ns (type.fields.map (·.name)) name = some i := by
  obtain ⟨hschema, s, hs, ht⟩ := h
  unfold Document.setWire Document.changeField at hok
  rw [hs] at hok
  simp only at hok
  split at hok
  · cases hok
  rename_i i decl hresolve
  unfold Segment.resolve at hresolve
  split at hresolve
  · cases hresolve
  rename_i j hj
  rw [← hschema, ← ht]
  exact ⟨j, hj⟩

/-- A child that is added is found among those of the type of its segment. -/
theorem Holds.childFound (h : Holds m id type d) {c : Nat} {name : String} (hok : d.addChild id name = .ok (d', c)) :
    ∃ slot u, m.childOf? type name = some (slot, u) ∧ Holds m c u d' := by
  obtain ⟨hschema, s, hs, ht⟩ := h
  obtain ⟨p, slot, u, hp, hchild, -, rfl, rfl⟩ := Document.addChild_eq_ok hok
  obtain rfl := Option.some_inj.mp (hs.symm.trans hp)
  refine ⟨slot, u, ?_, hschema, _, Document.segment?_append_new (Document.segment?_lt hs), rfl⟩
  rw [← hschema, ← ht]
  exact hchild

theorem index_of_childOf? {name : String} {slot : ChildSlot} {u : SegmentType}
    (h : m.childOf? type name = some (slot, u)) :
    ∃ i, declaredIndex? m.ns (type.children.map (·.segmentType)) name = some i := by
  obtain ⟨slot', hslot, -⟩ := Option.bind_eq_some_iff.mp h
  obtain ⟨i, hi, -⟩ := Option.bind_eq_some_iff.mp hslot
  exact ⟨i, hi⟩

/-- Where segments are read that are not mistaken, all their names come back. -/
theorem readable_of_readSegments (hb : Bound scope pre ns) (hm : m.Resolved) : ∀ (ts : List (Tree Segment))
    {d d' : Document} {id : Nat} {type : SegmentType} {level : Nat} {path : String} {before : List String}
    {ws : List Written}, Holds m id type d → type ∈ m.allSegments → Tree.AllFit m type level ts →
    Tree.AllUnmistaken m.ns type ts → encodeSegments pre docPath path before ts = .ok ws → AllPlain scope ws →
    readSegments ns d id (elementsIn scope ws) = .ok d' → ∀ s ∈ Tree.preorderAll ts, s.Readable
  | [], _, _, _, _, _, _, _, _, _, _, _, _, _, _, _ => by
    intro s hs
    cases hs
  | .node own children :: rest, d, d', id, type, level, path, before, ws, hholds, htype, hfits, hnames, h, hplain,
      hread => by
    obtain ⟨hslot, ⟨hown, -, -, hall⟩, hrest⟩ := hfits
    obtain ⟨⟨hname, hfields, hchildren⟩, hnamesRest⟩ := hnames
    obtain ⟨e, es, he, hes, rfl⟩ := encodeSegments_cons h
    obtain ⟨below, hbelow, -, rfl⟩ := encodeSegment_ok he
    obtain ⟨⟨-, -, -, hnd, hwrapped⟩, hplainRest⟩ := hplain
    rw [elementsIn, elementIn_prefixed hb] at hread
    obtain ⟨-, d₁, child, filled, d₂, hadd, happly, hwrappers, hmore⟩ := readSegments_cons_iff.mp hread
    -- the type is found where it is read, so it is the one that was written
    obtain ⟨slot, u, hfound, hnew⟩ := hholds.childFound hadd
    obtain ⟨i, hi⟩ := index_of_childOf? hfound
    have hmarkless : Name.Markless own.type.name := hname.discerned.markless hi
    obtain ⟨slot', -, -, hdeclared⟩ := hslot.childOf? hm htype
    simp only [Name.unescape_escape hmarkless] at hfound
    obtain ⟨rfl, rfl⟩ := Prod.mk.inj (Option.some_inj.mp (hfound.symm.trans hdeclared))
    have hset : ∀ d name text d', Holds m child own.type d → d.setWire child name text = .ok d' →
        Holds m child own.type d' ∧ ∃ i, declaredIndex? m.ns (own.type.fields.map (·.name)) name = some i :=
      fun d name text d' hd hok => ⟨hd.setWire hok, hd.found hok⟩
    have hreadable : own.Readable := ⟨hmarkless, markless_of_applyAttributes hset rfl
      (fun e he => (hfields e he).discerned) (ne_parent_document hnd) hnew happly⟩
    -- below it and behind it, the segment and its parent keep their types
    have hfilled : Holds m child own.type filled :=
      applyAttributes_keeps (fun d name text d' hd => hd.setWire) hnew happly
    have hparent : Holds m id type filled :=
      applyAttributes_keeps (fun d name text d' hd => hd.setWire) (hholds.addChild hadd) happly
    have hparent' : Holds m id type d₂ := readWrappers_keeps (fun d i name text d' hd => hd.setWire)
      (fun d i name d' c hd => hd.addChild) hparent hwrappers
    rw [readWrappers_wrapped hb] at hwrappers
    have hdown := readable_of_readSegments hb hm children hfilled hown hall hchildren hbelow
      (plain_of_wrapped hwrapped) hwrappers
    have hbehind := readable_of_readSegments hb hm rest hparent' htype hrest hnamesRest hes hplainRest hmore
    intro s hs
    rcases List.mem_append.mp hs with hs | hs
    · rcases List.mem_cons.mp hs with rfl | hs
      · exact hreadable
      · exact hdown s hs
    · exact hbehind s hs

/-! ## Records -/

variable {r r' : Record} {f : Function} {shape row : Shape} {h : Head} {children rest : List Element}

/-- A member that is there is no field, or is one that is set. -/
theorem present_cases : ∀ {ms : List (Member Shape)} {slots : List (Slot Record)}, SlotsSound f ms slots →
    ∀ n ∈ Record.presentAmong ms slots, n.field? = none ∨ ∃ e ∈ (ms.zip slots).filterMap Record.entry?, n = .field e.1
  | [], _, _, n, hn => by simp [Record.presentAmong] at hn
  | _ :: _, [], hs, n, hn => by cases hs
  | m :: ms, slot :: rest, hs, n, hn => by
    have hbehind : n ∈ Record.presentAmong ms rest →
        n.field? = none ∨ ∃ e ∈ ((m :: ms).zip (slot :: rest)).filterMap Record.entry?, n = .field e.1 := by
      intro hn
      rcases present_cases hs.2 n hn with hnone | ⟨e, he, hfield⟩
      · exact .inl hnone
      · refine .inr ⟨e, ?_, hfield⟩
        rw [List.zip_cons_cons]
        obtain ⟨p, hp, he⟩ := List.mem_filterMap.mp he
        exact List.mem_filterMap.mpr ⟨p, List.mem_cons_of_mem _ hp, he⟩
    by_cases habsent : slot = .absent
    · subst habsent
      exact hbehind hn
    rw [Record.presentAmong_cons habsent] at hn
    rcases List.mem_cons.mp hn with rfl | hn
    · cases n with
      | nested name description shape => exact .inl rfl
      | table name description row => exact .inl rfl
      | field decl =>
        cases slot with
        | absent => exact absurd rfl habsent
        | nested inner => cases hs.1
        | table rows => cases hs.1
        | value v => exact .inr ⟨(decl, v), List.mem_filterMap.mpr ⟨_, List.mem_cons_self, rfl⟩, rfl⟩
    · exact hbehind hn

theorem readRecord_ok (hok : readRecord ns r (.mk h children) = .ok r') :
    ∃ start, applyAttributes Record.setWire h r = .ok start ∧ readMembers ns start children = .ok r' := by
  unfold readRecord at hok
  split at hok
  · cases hok
  rename_i start hstart
  exact ⟨start, hstart, hok⟩

/-- An element below a record fills a nested record or adds rows to a table. -/
theorem readMembers_cons_ok (hok : readMembers ns r (.mk h children :: rest) = .ok r') : inNamespace ns h = true ∧
    ((∃ name description shape i inner inner',
        r.shape.member? r.ns (Name.unescape h.name) = some (.nested name description shape) ∧
        r.openNested (Name.unescape h.name) = .ok (i, inner) ∧ readRecord ns inner (.mk h children) = .ok inner' ∧
        readMembers ns (r.putSlot i (.nested inner')) rest = .ok r') ∨
      ∃ name description shape i row rows added,
        r.shape.member? r.ns (Name.unescape h.name) = some (.table name description shape) ∧ checkAdvisory h = .ok () ∧
        r.openTable (Name.unescape h.name) = .ok (i, row, rows) ∧
        readRows ns (.blank r.function row) children = .ok added ∧
        readMembers ns (r.putSlot i (.table (rows ++ added))) rest = .ok r') := by
  unfold readMembers at hok
  split at hok
  · cases hok
  rename_i hin
  refine ⟨by simpa using hin, ?_⟩
  simp only at hok
  split at hok
  · rename_i name description shape hmember
    split at hok
    · cases hok
    rename_i i inner hopen
    split at hok
    · cases hok
    rename_i inner' hinner
    exact .inl ⟨name, description, shape, i, inner, inner', hmember, hopen, hinner, hok⟩
  · rename_i name description shape hmember
    split at hok
    · cases hok
    rename_i hcheck
    split at hok
    · cases hok
    rename_i i row rows hopen
    split at hok
    · cases hok
    rename_i added hadded
    exact .inr ⟨name, description, shape, i, row, rows, added, hmember, hcheck, hopen, hadded, hok⟩
  · cases hok

theorem readRows_cons_ok {blank : Record} {rows : List Record}
    (hok : readRows ns blank (.mk h children :: rest) = .ok rows) : h.isNamed none "row" = true ∧
    ∃ x more, readRecord ns blank (.mk h children) = .ok x ∧ readRows ns blank rest = .ok more ∧ rows = x :: more := by
  unfold readRows at hok
  split at hok
  · cases hok
  rename_i hname
  split at hok
  · cases hok
  rename_i x hx
  obtain ⟨more, hmore, rfl⟩ := Outcome.map_eq_ok.mp hok
  exact ⟨by simpa using hname, x, more, hx, hmore, rfl⟩

theorem setWire_isOf (hr : IsOf f shape r) {name text : String} (hok : r.setWire name text = .ok r') :
    IsOf f shape r' ∧ ∃ i, declaredIndex? f.ns (shape.members.map Member.name) name = some i := by
  obtain ⟨rfl, rfl, hsound⟩ := hr
  refine ⟨hsound.changeField (fun _ _ => FieldDecl.acceptWire_kind) hok, ?_⟩
  unfold Record.setWire Record.changeField at hok
  split at hok
  · cases hok
  rename_i i decl hfield
  unfold Record.resolveField at hfield
  split at hfield
  · cases hfield
  · rename_i hresolve
    unfold Record.resolve at hresolve
    split at hresolve
    · cases hresolve
    rename_i j hj
    exact ⟨j, hj⟩
  · cases hfield

/-- The names of a record that is read come back, where those of its nested records and tables do. -/
theorem readable_of_readRecord {slots : List (Slot Record)} (hr : IsOf f shape r) (hsound : SlotsSound f shape.members slots)
    (hnames : ∀ y ∈ (Record.mk f shape slots).preorder, y.Unmistaken)
    (hparent : ∀ e ∈ (Record.mk f shape slots).entries, e.1.name ≠ "parent") {advice : Attributes}
    (he : h.attributes = readAs (advice ++ (Record.mk f shape slots).entries.map attributeOf))
    (hok : readRecord ns r (.mk h children) = .ok r')
    (hmembers : ∀ start, IsOf f shape start → readMembers ns start children = .ok r' →
      (∀ n ∈ Record.presentAmong shape.members slots, n.field? = none → Name.Markless n.name) ∧
        ∀ y ∈ Record.preorderSlots slots, y.Readable) : ∀ y ∈ (Record.mk f shape slots).preorder, y.Readable := by
  obtain ⟨start, happly, hread⟩ := readRecord_ok hok
  have hown : (Record.mk f shape slots).Unmistaken := hnames _ List.mem_cons_self
  have hkeeps : ∀ s name text s', IsOf f shape s → s.setWire name text = .ok s' → IsOf f shape s' :=
    fun s name text s' hs hset => (setWire_isOf hs hset).1
  have hfields : ∀ e ∈ (Record.mk f shape slots).entries, Name.Markless e.1.name :=
    markless_of_applyAttributes (fun s name text s' hs hset => setWire_isOf hs hset) he
      (fun e he => (hown.fields e he).1.discerned) (fun e he => ⟨hparent e he, (hown.fields e he).2⟩) hr happly
  obtain ⟨hpresent, hdown⟩ := hmembers start (applyAttributes_keeps hkeeps hr happly) hread
  intro y hy
  rcases List.mem_cons.mp hy with rfl | hy
  · refine ⟨?_, fun e he => (hown.fields e he).2⟩
    intro n hn
    rcases present_cases hsound n hn with hnone | ⟨e, he, rfl⟩
    · exact hpresent n hn hnone
    · exact hfields e he
  · exact hdown y hy

/-- Where an element is read as a member, that is found under the name of the element; so the name holds no `_-`. -/
theorem markless_of_readMembers (hr : IsOf f shape r) {name : String}
    (hname : ElementName f.ns (shape.members.map Member.name) name) (hh : h.name = Name.escape name)
    (hok : readMembers ns r (.mk h children :: rest) = .ok r') : Name.Markless name := by
  obtain ⟨rfl, rfl, -⟩ := hr
  have hfound : ∃ n, r.shape.member? r.ns (Name.unescape h.name) = some n := by
    obtain ⟨-, ⟨_, _, _, _, _, _, hfound, -⟩ | ⟨_, _, _, _, _, _, _, hfound, -⟩⟩ := readMembers_cons_ok hok
    · exact ⟨_, hfound⟩
    · exact ⟨_, hfound⟩
  obtain ⟨n, hn⟩ := hfound
  obtain ⟨i, hi, -⟩ := Option.bind_eq_some_iff.mp hn
  rw [hh] at hi
  exact hname.discerned.markless hi

/-- An element with the name of a nested record is read as that record, and the rest into a record of the same shape. -/
theorem readMembers_nested_ok (hd : shape.Distinct) (hr : IsOf f shape r) {name description : String} {declared : Shape}
    (hm : .nested name description declared ∈ shape.members)
    (hname : ElementName f.ns (shape.members.map Member.name) name) (hh : h.name = Name.escape name)
    (hok : readMembers ns r (.mk h children :: rest) = .ok r') : Name.Markless name ∧
    ∃ inner inner' r₁, IsOf f declared inner ∧ readRecord ns inner (.mk h children) = .ok inner' ∧ IsOf f shape r₁ ∧
      readMembers ns r₁ rest = .ok r' := by
  have hmarkless := markless_of_readMembers hr hname hh hok
  obtain ⟨-, hcases⟩ := readMembers_cons_ok hok
  rw [hh, Name.unescape_escape hmarkless] at hcases
  obtain ⟨rfl, rfl, hsound⟩ := hr
  obtain ⟨j, hj⟩ := List.getElem?_of_mem hm
  have hmember : r.shape.member? r.ns name = some (.nested name description declared) := member?_declared hd hj
  refine ⟨hmarkless, ?_⟩
  rcases hcases with ⟨_, _, _, i, inner, inner', -, hopen, hinner, hrest⟩ | ⟨_, _, _, _, _, _, _, hfound, -⟩
  · obtain ⟨name', description', shape, hi, hopened⟩ := hsound.openNested hopen
    have hij : i = j := by
      simp only [Record.openNested, Record.resolveNested_declared hd hj, Outcome.map_ok] at hopen
      split at hopen <;> cases hopen <;> rfl
    rw [hij, hj] at hi
    cases hi
    obtain ⟨hf, hs, hread⟩ := readRecord_isOf hopened.2.2 hinner
    exact ⟨inner, inner', _, hopened, hinner,
      hsound.putNested (hij ▸ hj) ⟨hf.trans hopened.1, hs.trans hopened.2.1, hread⟩, hrest⟩
  · cases hmember.symm.trans hfound

/-- An element with the name of a table is read as rows of it, and the rest into a record of the same shape. -/
theorem readMembers_table_ok (hd : shape.Distinct) (hr : IsOf f shape r) {name description : String} {declared : Shape}
    (hm : .table name description declared ∈ shape.members)
    (hname : ElementName f.ns (shape.members.map Member.name) name) (hh : h.name = Name.escape name)
    (hok : readMembers ns r (.mk h children :: rest) = .ok r') : Name.Markless name ∧
    ∃ added r₁, readRows ns (.blank f declared) children = .ok added ∧ IsOf f shape r₁ ∧
      readMembers ns r₁ rest = .ok r' := by
  have hmarkless := markless_of_readMembers hr hname hh hok
  obtain ⟨-, hcases⟩ := readMembers_cons_ok hok
  rw [hh, Name.unescape_escape hmarkless] at hcases
  obtain ⟨rfl, rfl, hsound⟩ := hr
  obtain ⟨j, hj⟩ := List.getElem?_of_mem hm
  have hmember : r.shape.member? r.ns name = some (.table name description declared) := member?_declared hd hj
  refine ⟨hmarkless, ?_⟩
  rcases hcases with ⟨_, _, _, _, _, _, hfound, -⟩ | ⟨_, _, _, i, row, rows, added, -, -, hopen, hadded, hrest⟩
  · cases hmember.symm.trans hfound
  · obtain ⟨name', description', hi, hrows⟩ := hsound.openTable hopen
    have hij : i = j := by
      simp only [Record.openTable, Record.resolveTable_declared hd hj, Outcome.map_ok] at hopen
      split at hopen <;> cases hopen <;> rfl
    rw [hij, hj] at hi
    cases hi
    have hnew := readRows_isOf (Record.blank_sound r.function declared) hadded
    refine ⟨added, _, hadded, hsound.putTable (hij ▸ hj) ?_, hrest⟩
    intro x hx
    rcases List.mem_append.mp hx with hx | hx
    · exact hrows x hx
    · exact hnew x hx

mutual

/-- Where members are read that are not mistaken, the names of the nested records and tables come back, and those of
all records below. -/
theorem readable_of_readMembers (hb : Bound scope pre ns) : ∀ (slots : List (Slot Record)) {f : Function} {shape : Shape}
    {ms : List (Member Shape)} {r r' : Record} {path : String} {ws : List Written}, shape.Distinct →
    (∀ m ∈ ms, m ∈ shape.members) → IsOf f shape r → SlotsSound f ms slots →
    (∀ m ∈ Record.presentAmong ms slots, ElementName f.ns (shape.members.map Member.name) m.name) →
    (∀ x ∈ Record.preorderSlots slots, x.Unmistaken) → encodeSlots pre path (ms.map Member.name) slots = .ok ws →
    AllPlain scope ws → readMembers ns r (elementsIn scope ws) = .ok r' →
    (∀ n ∈ Record.presentAmong ms slots, n.field? = none → Name.Markless n.name) ∧
      ∀ x ∈ Record.preorderSlots slots, x.Readable
  | [], f, shape, ms, _, _, _, _, _, _, _, _, _, _, _, _, _ => by
    refine ⟨fun n hn => ?_, fun x hx => by cases hx⟩
    cases ms <;> cases hn
  | slot :: more, f, shape, [], _, _, _, _, _, _, _, hs, _, _, _, _, _ => by cases hs
  | slot :: more, f, shape, m :: ms, r, r', path, ws, hd, hin, hr, hs, hnames, hbelow, h, hplain, hread => by
    obtain ⟨es, ws', hes, hws, rfl⟩ := encodeSlots_cons h
    obtain ⟨hplainOwn, hplainRest⟩ := allPlain_of_append hplain
    rw [elementsIn_append] at hread
    have hname : slot ≠ .absent → ElementName f.ns (shape.members.map Member.name) m.name := fun hslot =>
      hnames m (Record.presentAmong_own hslot)
    obtain ⟨hown, hreadable, r₁, hr₁, hrest⟩ := readable_of_readSlot hb slot hd (hin m List.mem_cons_self) hr hs.1 hname
      (fun x hx => hbelow x (List.mem_append_left _ hx)) hes hplainOwn hread
    obtain ⟨hmore, hreadableMore⟩ := readable_of_readMembers hb more hd (fun n hn => hin n (List.mem_cons_of_mem _ hn)) hr₁
      hs.2 (fun n hn => hnames n (Record.presentAmong_rest hn)) (fun x hx => hbelow x (List.mem_append_right _ hx)) hws
      hplainRest hrest
    constructor
    · intro n hn hnone
      by_cases habsent : slot = .absent
      · subst habsent
        exact hmore n hn hnone
      rw [Record.presentAmong_cons habsent] at hn
      rcases List.mem_cons.mp hn with rfl | hn
      · exact hown habsent hnone
      · exact hmore n hn hnone
    · intro x hx
      rcases List.mem_append.mp hx with hx | hx
      · exact hreadable x hx
      · exact hreadableMore x hx

theorem readable_of_readSlot (hb : Bound scope pre ns) : ∀ (slot : Slot Record) {f : Function} {shape : Shape}
    {m : Member Shape} {r r' : Record} {path : String} {es : List Written} {rest : List Element}, shape.Distinct →
    m ∈ shape.members → IsOf f shape r → SlotSound f m slot →
    (slot ≠ .absent → ElementName f.ns (shape.members.map Member.name) m.name) →
    (∀ x ∈ Record.preorderSlot slot, x.Unmistaken) → encodeSlot pre path (Name.escape m.name) slot = .ok es →
    AllPlain scope es → readMembers ns r (elementsIn scope es ++ rest) = .ok r' →
    (slot ≠ .absent → m.field? = none → Name.Markless m.name) ∧ (∀ x ∈ Record.preorderSlot slot, x.Readable) ∧
      ∃ r₁, IsOf f shape r₁ ∧ readMembers ns r₁ rest = .ok r'
  | .absent, f, shape, m, r, r', path, es, rest, _, _, hr, _, _, _, h, _, hread => by
    simp only [encodeSlot, Except.ok.injEq] at h
    subst h
    exact ⟨fun h => absurd rfl h, fun x hx => (by cases hx), r, hr, hread⟩
  | .value v, f, shape, m, r, r', path, es, rest, _, _, hr, hs, _, _, h, _, hread => by
    simp only [encodeSlot, Except.ok.injEq] at h
    subst h
    cases m with
    | nested name description shape => cases hs
    | table name description row => cases hs
    | field decl => exact ⟨fun _ hnone => (by cases hnone), fun x hx => (by cases hx), r, hr, hread⟩
  | .nested (.mk f' inner slots), f, shape, m, r, r', path, es, rest, hd, hm, hr, hs, hname, hbelow, h, hplain,
      hread => by
    simp only [encodeSlot] at h
    obtain ⟨w, hw, rfl⟩ := Outcome.map_eq_ok.mp h
    obtain ⟨ws, hws, -, rfl⟩ := encodeRecordAs_ok hw
    obtain ⟨⟨-, -, -, hnd, hplainBelow⟩, -⟩ := hplain
    cases m with
    | field decl => cases hs
    | table name description row => cases hs
    | nested name description declared =>
      obtain ⟨hf, hshape, hsound⟩ := hs
      obtain rfl : f' = f := hf
      obtain rfl : inner = declared := hshape
      rw [elementsIn, elementIn_prefixed hb, elementsIn, List.singleton_append] at hread
      obtain ⟨hmarkless, opened, opened', r₁, hopened, hinner, hr₁, hrest⟩ :=
        readMembers_nested_ok hd hr hm (hname fun he => by cases he) rfl hread
      have hreadable := readable_of_readRecord hopened hsound hbelow (ne_parent hnd) rfl hinner
        fun start hstart hmembers => readable_of_readMembers hb slots (hd.below hm rfl) (fun n hn => hn) hstart hsound
          (hbelow _ List.mem_cons_self).members (fun x hx => hbelow x (List.mem_cons_of_mem _ hx)) hws hplainBelow hmembers
      exact ⟨fun _ _ => hmarkless, hreadable, r₁, hr₁, hrest⟩
  | .table rows, f, shape, m, r, r', path, es, rest, hd, hm, hr, hs, hname, hbelow, h, hplain, hread => by
    simp only [encodeSlot] at h
    obtain ⟨ws, hws, rfl⟩ := Outcome.map_eq_ok.mp h
    obtain ⟨⟨-, -, -, -, hplainBelow⟩, -⟩ := hplain
    cases m with
    | field decl => cases hs
    | nested name description shape => cases hs
    | table name description row =>
      rw [elementsIn, elementIn_prefixed hb, elementsIn, List.singleton_append] at hread
      obtain ⟨hmarkless, added, r₁, hadded, hr₁, hrest⟩ :=
        readMembers_table_ok hd hr hm (hname fun he => by cases he) rfl hread
      have hreadable := readable_of_readRows hb rows (hd.below hm rfl) hs hbelow hws hplainBelow hadded
      exact ⟨fun _ _ => hmarkless, hreadable, r₁, hr₁, hrest⟩

theorem readable_of_readRows (hb : Bound scope pre ns) : ∀ (rows : List Record) {f : Function} {row : Shape}
    {path : String} {i : Nat} {ws : List Written} {added : List Record}, row.Distinct → RowsSound f row rows →
    (∀ x ∈ Record.preorderRows rows, x.Unmistaken) → encodeRows pre path i rows = .ok ws → AllPlain scope ws →
    readRows ns (.blank f row) (elementsIn scope ws) = .ok added → ∀ x ∈ Record.preorderRows rows, x.Readable
  | [], _, _, _, _, _, _, _, _, _, _, _, _ => by
    intro x hx
    cases hx
  | .mk f' shape slots :: more, f, row, path, i, ws, added, hd, hs, hbelow, h, hplain, hread => by
    obtain ⟨own, w, ws', hw, hws', rfl⟩ := encodeRows_cons h
    obtain ⟨ws, hws, -, rfl⟩ := encodeRecordAs_ok hw
    obtain ⟨⟨-, -, -, hnd, hplainBelow⟩, hplainRest⟩ := hplain
    obtain ⟨⟨hf, hshape, hsound⟩, hrest⟩ := hs
    obtain rfl : f' = f := hf
    obtain rfl : shape = row := hshape
    rw [elementsIn, elementIn_bare hb row_name.2] at hread
    obtain ⟨-, x', more', hinner, hmore, -⟩ := readRows_cons_ok hread
    have hown : ∀ y ∈ (Record.mk f' shape slots).preorder, y.Unmistaken := fun y hy =>
      hbelow y (List.mem_append_left _ hy)
    have hreadable := readable_of_readRecord (Record.blank_isOf f' shape) hsound hown (ne_parent hnd) rfl hinner
      fun start hstart hmembers => readable_of_readMembers hb slots hd (fun n hn => hn) hstart hsound
        (hown _ List.mem_cons_self).members (fun x hx => hown x (List.mem_cons_of_mem _ hx)) hws hplainBelow hmembers
    have hbehind := readable_of_readRows hb more hd hrest (fun x hx => hbelow x (List.mem_append_right _ hx)) hws'
      hplainRest hmore
    intro x hx
    rcases List.mem_append.mp hx with hx | hx
    · exact hreadable x hx
    · exact hbehind x hx

end

end Xml

end DocWire
