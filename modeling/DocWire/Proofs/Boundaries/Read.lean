/-
  DocWire.Proofs.Boundaries.Read — both boundaries read the same.

  A native document holds any wire strings, under control names and declared names, and segments of any types that
  were asked for. `documentOf` tells the same in elements: the control record as attributes of the document, the
  values of a segment as attributes of its element, and the segments below it in a wrapper. Nothing of this need come
  from a writer.

  The readers go different ways. The connector's walks the declared fields and looks each up; XML's walks the
  attributes and looks up the field of each. On a blank segment both come to the same (`setValues_iff`): what stands
  under the name of a field is decoded into it, and the first wire string that is no value refuses all. Types are asked
  for in the same words, so a child is refused by both or by neither, and below a segment the readers are followed
  together (`readSegments_iff`).
-/

import DocWire.Proofs.Connector.Documents
import DocWire.Proofs.Xml.Document

namespace DocWire

namespace Boundaries

open Markup (Attribute Element Head)

/-! ## A native document as elements -/

/-- The attribute that a control name stands for. -/
def controlAttribute? (name : String) : Option String :=
  if name = creationDateControl then some creationDateAttribute
  else if name = creationTimeControl then some creationTimeAttribute
  else (HeaderField.all.find? (·.controlName == name)).map HeaderField.attributeName

/-- The control record as attributes; what is under no control name is left out. -/
def headerOf (control : WireValues) : List Attribute :=
  control.filterMap fun (name, text) => (controlAttribute? name).map fun attr => ⟨none, attr, text⟩

/-- The values of a segment as attributes. -/
def fieldsOf (values : WireValues) : List Attribute := values.map fun (name, text) => ⟨none, Name.escape name, text⟩

/-- Elements in a wrapper, if there are any. -/
def wrapperOf (es : List Element) : List Element :=
  if es.isEmpty then [] else [.mk ⟨none, "segmentChildren", [], []⟩ es]

mutual

def elementOf (ns : String) : NativeSegment → Element
  | .mk type values children =>
    .mk ⟨some ns, Name.escape type, [], fieldsOf values⟩ (wrapperOf (elementsOf ns children))

def elementsOf (ns : String) : List NativeSegment → List Element
  | [] => []
  | n :: rest => elementOf ns n :: elementsOf ns rest

end

/-- A native document as an element: `top` with the header as its attributes, and one root segment. -/
def documentOf (top : Head) (ns : String) (n : NativeDocument) : Element :=
  .mk { top with attributes := headerOf n.header }
    [.mk ⟨none, "rootSegment", [], fieldsOf n.root.values⟩ (wrapperOf (elementsOf ns n.root.children))]

mutual

/-- Wire strings stand under declared names of the segment type, and so do those of all segments below that are of a
declared type. -/
def Declared (m : MessageType) (type : SegmentType) : NativeSegment → Prop
  | .mk _ values children =>
    (values.map Prod.fst).Nodup ∧ (∀ p ∈ values, p.1 ∈ type.fields.map (·.name)) ∧ AllDeclared m type children

/-- The types that are asked for below a segment hold no `_-`; they need not be declared. -/
def AllDeclared (m : MessageType) (type : SegmentType) : List NativeSegment → Prop
  | [] => True
  | n :: rest =>
    Name.Markless n.type ∧ (∀ slot t, m.childOf? type n.type = some (slot, t) → Declared m t n) ∧ AllDeclared m type rest

end

mutual

def Declared.decide (m : MessageType) : ∀ (type : SegmentType) (n : NativeSegment), Decidable (Declared m type n)
  | type, .mk _ values children =>
    have := AllDeclared.decide m type children
    inferInstanceAs (Decidable ((values.map Prod.fst).Nodup ∧ (∀ p ∈ values, p.1 ∈ type.fields.map (·.name)) ∧
      AllDeclared m type children))

def AllDeclared.decide (m : MessageType) : ∀ (type : SegmentType) (natives : List NativeSegment),
    Decidable (AllDeclared m type natives)
  | _, [] => isTrue trivial
  | type, n :: rest =>
    have := AllDeclared.decide m type rest
    have : Decidable (∀ slot t, m.childOf? type n.type = some (slot, t) → Declared m t n) :=
      match hchild : m.childOf? type n.type with
      | none => isTrue (by simp)
      | some (_, t) =>
        have := Declared.decide m t n
        decidable_of_iff (Declared m t n) (by simp)
    inferInstanceAs (Decidable (Name.Markless n.type ∧
      (∀ slot t, m.childOf? type n.type = some (slot, t) → Declared m t n) ∧ AllDeclared m type rest))

end

instance (m : MessageType) (type : SegmentType) (natives : List NativeSegment) : Decidable (AllDeclared m type natives) :=
  AllDeclared.decide m type natives

/-! ## The header -/

theorem controlAttribute?_field (f : HeaderField) : controlAttribute? f.controlName = some f.attributeName := by
  cases f <;> decide +kernel

/-- A control name is that of a field, or stands for no attribute that names one. -/
theorem controlAttribute?_cases (name : String) :
    (∃ f, name = HeaderField.controlName f) ∨ (∀ f, HeaderField.controlName f ≠ name) ∧
      (controlAttribute? name = none ∨ controlAttribute? name = some creationDateAttribute ∨
        controlAttribute? name = some creationTimeAttribute) := by
  by_cases hfield : ∃ f, name = HeaderField.controlName f
  · exact .inl hfield
  · have hne : ∀ f, HeaderField.controlName f ≠ name := fun f he => hfield ⟨f, he.symm⟩
    refine .inr ⟨hne, ?_⟩
    have hnone : HeaderField.all.find? (·.controlName == name) = none := by
      rw [List.find?_eq_none]
      intro f _
      simp [hne f]
    unfold controlAttribute?
    split
    · exact .inr (.inl rfl)
    split
    · exact .inr (.inr rfl)
    · rw [hnone]
      exact .inl rfl

/-- The header attributes are all read, and each field is as the control record says. -/
theorem foldlM_headerOf {control : WireValues} (hnd : (control.map Prod.fst).Nodup) (h : Head) (d : Document) :
    ∃ header : Header, (headerOf control).foldlM (Xml.applyHeader h) d = .ok { d with header := header } ∧
      ∀ f, header.get f = (control.lookup f.controlName).or (d.header.get f) := by
  induction control generalizing d with
  | nil => exact ⟨d.header, rfl, fun f => rfl⟩
  | cons p rest ih =>
    obtain ⟨name, text⟩ := p
    rw [List.map_cons, List.nodup_cons] at hnd
    rcases controlAttribute?_cases name with ⟨g, rfl⟩ | ⟨hne, hattr⟩
    · obtain ⟨header, hread, hget⟩ := ih hnd.2 (d.setHeader g text)
      refine ⟨header, ?_, ?_⟩
      · rw [headerOf, List.filterMap_cons]
        simp only [controlAttribute?_field, Option.map_some]
        rw [List.foldlM_cons, Xml.applyHeader_field]
        exact hread
      · intro f
        rw [hget]
        by_cases hf : f = g
        · subst hf
          rw [Lookup.lookup_eq_none hnd.1, List.lookup_cons_self]
          simp [Document.setHeader]
        · have hname : (f.controlName == g.controlName) = false := by
            simpa using fun he => hf (HeaderField.controlName_injective he)
          rw [List.lookup_cons, hname]
          simp [Document.setHeader, hf]
    · obtain ⟨header, hread, hget⟩ := ih hnd.2 d
      refine ⟨header, ?_, ?_⟩
      · rcases hattr with hattr | hattr | hattr
        · rw [headerOf, List.filterMap_cons]
          simp only [hattr, Option.map_none]
          exact hread
        · rw [headerOf, List.filterMap_cons]
          simp only [hattr, Option.map_some]
          rw [List.foldlM_cons, Xml.applyHeader_passed (a := (creationDateAttribute, text)) (.inr (.inl rfl))]
          exact hread
        · rw [headerOf, List.filterMap_cons]
          simp only [hattr, Option.map_some]
          rw [List.foldlM_cons, Xml.applyHeader_passed (a := (creationTimeAttribute, text)) (.inr (.inr rfl))]
          exact hread
      · intro f
        have hname : (f.controlName == name) = false := by simpa using hne f
        rw [hget, List.lookup_cons, hname]

theorem readHeader_headerOf {control : WireValues} (hnd : (control.map Prod.fst).Nodup) {h : Head}
    (he : h.attributes = headerOf control) (d : Document) :
    Xml.readHeader h d = .ok { d with header := Native.readHeader control d.header } := by
  obtain ⟨header, hread, hget⟩ := foldlM_headerOf hnd h d
  have hsame : Native.readHeader control d.header = header := by
    have hfields : (Native.readHeader control d.header).get = header.get := by
      funext f
      rw [Native.get_readHeader, hget]
    exact congrArg Header.mk hfields
  rw [hsame, ← hread, ← he]
  rfl

/-! ## Fields -/

/-- What wire strings make of a field: what stands under its name is decoded, and else it stays as it was. -/
def Sets (values : WireValues) (decl : FieldDecl) (old new : Option Value) : Prop :=
  match values.lookup decl.name with
  | none => new = old
  | some text => Coercion.decodeWire decl.format text = .ok new

/-- A wire string more sets one field more. -/
theorem sets_cons_iff {decls : List FieldDecl} (hnd : (decls.map (·.name)).Nodup) {own decl : FieldDecl} (hown : own ∈ decls)
    (hdecl : decl ∈ decls) {text : String} {rest : WireValues} (hrest : own.name ∉ rest.map Prod.fst) {v : Option Value}
    (hv : Coercion.decodeWire own.format text = .ok v) (old new : Option Value) :
    Sets ((own.name, text) :: rest) decl old new ↔ Sets rest decl (if decl.name = own.name then v else old) new := by
  by_cases he : decl.name = own.name
  · obtain rfl : decl = own := List.inj_on_of_nodup_map hnd hdecl hown he
    rw [Sets, List.lookup_cons_self, Sets, Lookup.lookup_eq_none hrest, if_pos rfl]
    show Coercion.decodeWire decl.format text = .ok new ↔ new = v
    rw [hv, Except.ok.injEq]
    exact eq_comm
  · have hne : (decl.name == own.name) = false := by simpa using he
    rw [Sets, List.lookup_cons, hne, if_neg he]
    rfl

/-- The cell of a field is changed. -/
theorem set_map {decls : List FieldDecl} (hnd : (decls.map (·.name)).Nodup) {i : Nat} {own : FieldDecl}
    (hi : decls[i]? = some own) (g : FieldDecl → Option Value) (v : Option Value) :
    (decls.map g).set i v = decls.map fun decl => if decl.name = own.name then v else g decl := by
  refine List.ext_getElem? ?_
  intro j
  rw [List.getElem?_set, List.getElem?_map, List.getElem?_map, List.length_map]
  by_cases hj : i = j
  · subst hj
    have hlt := (List.getElem?_eq_some_iff.mp hi).1
    rw [if_pos rfl, if_pos hlt, hi, Option.map_some, if_pos rfl]
  · rw [if_neg hj]
    cases hdecl : decls[j]? with
    | none => rfl
    | some decl =>
      have hne : decl.name ≠ own.name := by
        intro he
        have hnames : (decls.map (·.name))[i]? = (decls.map (·.name))[j]? := by
          rw [List.getElem?_map, List.getElem?_map, hi, hdecl, Option.map_some, Option.map_some, he]
        have hlt : i < (decls.map (·.name)).length := by
          rw [List.length_map]
          exact (List.getElem?_eq_some_iff.mp hi).1
        exact hj ((List.getElem?_inj hlt hnd).mp hnames)
      rw [Option.map_some, Option.map_some, if_neg hne]

/-- The wire strings of fields are set one by one: this succeeds exactly where each is decoded, and then every field is
what they make of it. -/
theorem setValues_iff {d : Document} {id : Nat} {t : Segment} (ht : d.segment? id = some t)
    (hnd : (t.type.fields.map (·.name)).Nodup) {values : WireValues} (hdistinct : (values.map Prod.fst).Nodup)
    (hdeclared : ∀ p ∈ values, p.1 ∈ t.type.fields.map (·.name)) (g : FieldDecl → Option Value) (d' : Document) :
    values.foldlM (fun d p => (d.setWire id p.1 p.2).mapError XmlError.model) (d.putFields id (t.type.fields.map g)) =
        .ok d' ↔
      ∃ g', (∀ decl ∈ t.type.fields, Sets values decl (g decl) (g' decl)) ∧
        d' = d.putFields id (t.type.fields.map g') := by
  induction values generalizing g with
  | nil =>
    constructor
    · intro h
      cases h
      exact ⟨g, fun decl _ => rfl, rfl⟩
    · rintro ⟨g', hsets, rfl⟩
      rw [List.map_congr_left hsets]
      rfl
  | cons p rest ih =>
    obtain ⟨name, text⟩ := p
    rw [List.map_cons, List.nodup_cons] at hdistinct
    obtain ⟨own, hown, rfl⟩ := List.mem_map.mp (hdeclared _ List.mem_cons_self)
    obtain ⟨i, hi⟩ := List.getElem?_of_mem hown
    have hstep : (d.putFields id (t.type.fields.map g)).setWire id own.name text =
        (own.acceptWire text).map fun v => d.putFields id ((t.type.fields.map g).set i v) :=
      Document.changeField_putFields ht hnd hi _ _
    rw [List.foldlM_cons]
    simp only [hstep, FieldDecl.acceptWire]
    cases hv : Coercion.decodeWire own.format text with
    | error cause =>
      constructor
      · intro h
        cases h
      · rintro ⟨g', hsets, -⟩
        have hfirst := hsets own hown
        rw [Sets, List.lookup_cons_self] at hfirst
        have hdecoded : Coercion.decodeWire own.format text = .ok (g' own) := hfirst
        rw [hv] at hdecoded
        cases hdecoded
    | ok v =>
      simp only [Outcome.mapError_ok, Outcome.map_ok, set_map hnd hi]
      have hiff := ih hdistinct.2 (fun p hp => hdeclared p (List.mem_cons_of_mem _ hp))
        fun decl => if decl.name = own.name then v else g decl
      refine hiff.trans ?_
      constructor
      · rintro ⟨g', hsets, hd'⟩
        refine ⟨g', ?_, hd'⟩
        intro decl hdecl
        exact (sets_cons_iff hnd hown hdecl hdistinct.1 hv _ _).mpr (hsets decl hdecl)
      · rintro ⟨g', hsets, hd'⟩
        refine ⟨g', ?_, hd'⟩
        intro decl hdecl
        exact (sets_cons_iff hnd hown hdecl hdistinct.1 hv _ _).mp (hsets decl hdecl)

/-- On a blank segment the attributes of an element do what the look-ups of its declared fields do. -/
theorem applyFields_iff {d : Document} {id : Nat} {t : Segment} (ht : d.segment? id = some t)
    (hnd : (t.type.fields.map (·.name)).Nodup) (hblank : t.fields = List.replicate t.type.fields.length none)
    (hread : ∀ decl ∈ t.type.fields, Legible decl.name) {values : WireValues} (hdistinct : (values.map Prod.fst).Nodup)
    (hdeclared : ∀ p ∈ values, p.1 ∈ t.type.fields.map (·.name)) {h : Head} (he : h.attributes = fieldsOf values)
    (d' : Document) :
    Xml.applyAttributes (fun d name text => d.setWire id name text) h d = .ok d' ↔
      ∃ fields, t.type.fields.mapM (Native.decodeField values) = .ok fields ∧ d' = d.putFields id fields := by
  have hstart : d.putFields id (t.type.fields.map fun _ => none) = d := by
    rw [List.map_const', ← hblank, Document.putFields_self ht]
  have hfold : Xml.applyAttributes (fun d name text => d.setWire id name text) h d =
      values.foldlM (fun d p => (d.setWire id p.1 p.2).mapError XmlError.model) d := by
    show h.attributes.foldlM (Xml.applyAttribute _ h) d = _
    rw [he, fieldsOf]
    clear he hstart hdistinct hblank ht
    induction values generalizing d with
    | nil => rfl
    | cons p rest ih =>
      obtain ⟨decl, hdecl, hname⟩ := List.mem_map.mp (hdeclared p List.mem_cons_self)
      have hlegible : Legible p.1 := hname ▸ hread decl hdecl
      rw [List.map_cons, List.foldlM_cons, List.foldlM_cons, Xml.applyAttribute_field hlegible]
      refine congrArg _ (funext fun d => ?_)
      exact ih fun p hp => hdeclared p (List.mem_cons_of_mem _ hp)
  rw [hfold]
  have hiff := setValues_iff ht hnd hdistinct hdeclared (fun _ => none) d'
  rw [hstart] at hiff
  refine hiff.trans ?_
  have hone : ∀ decl w, Sets values decl none w ↔ Native.decodeField values decl = .ok w := by
    intro decl w
    rw [Sets, Native.decodeField]
    cases values.lookup decl.name with
    | none => exact ⟨fun h => congrArg Except.ok h.symm, fun h => (Except.ok.inj h).symm⟩
    | some text => exact Outcome.mapError_eq_ok.symm
  constructor
  · rintro ⟨g', hsets, rfl⟩
    refine ⟨_, Pairing.mapM_eq_ok_iff.mpr ⟨g', rfl, ?_⟩, rfl⟩
    intro decl hdecl
    exact (hone decl _).mp (hsets decl hdecl)
  · rintro ⟨fields, hdecoded, rfl⟩
    obtain ⟨g', rfl, hall⟩ := Pairing.mapM_eq_ok_iff.mp hdecoded
    refine ⟨g', ?_, rfl⟩
    intro decl hdecl
    exact (hone decl _).mpr (hall decl hdecl)

/-! ## Segments -/

theorem readWrappers_wrapperOf {ns : String} {d : Document} {id : Nat} (es : List Element) :
    Xml.readWrappers ns d id (wrapperOf es) = Xml.readSegments ns d id es := by
  cases es with
  | nil =>
    show Xml.readWrappers ns d id [] = Xml.readSegments ns d id []
    rw [Xml.readWrappers, Xml.readSegments]
  | cons e rest =>
    have hcheck : Xml.checkAdvisory ⟨none, "segmentChildren", [], []⟩ = .ok () := rfl
    show Xml.readWrappers ns d id [.mk ⟨none, "segmentChildren", [], []⟩ (e :: rest)] = _
    rw [Xml.readWrappers, hcheck]
    simp only [Head.isNamed, BEq.rfl, Bool.and_self, Bool.not_true, Bool.false_eq_true, if_false]
    cases Xml.readSegments ns d id (e :: rest) with
    | error e => rfl
    | ok d' => simp only [Xml.readWrappers]

/-- What stands before a segment keeps its type, whatever is read behind it. -/
theorem readSegment_keepsType {m : MessageType} {id : Nat} {child : Nat} {n : NativeSegment} {d d' : Document}
    (hschema : d.schema = m) {s : Segment} (hs : d.segment? id = some s) (h : Native.readSegment d child n = .ok d') :
    d'.schema = m ∧ ∃ u, d'.segment? id = some u ∧ u.type = s.type := by
  refine Native.readSegment_keeps (Q := fun d => d.schema = m ∧ ∃ u, d.segment? id = some u ∧ u.type = s.type) ?_ ?_
    ⟨hschema, s, hs, rfl⟩ h
  · rintro d i t values fields ⟨hm, u, hu, ht⟩ - -
    refine ⟨hm, { u with fields := if id = i then fields else u.fields }, ?_, ht⟩
    rw [Document.segment?_putFields, hu, Option.map_some]
  · rintro d i name d' c ⟨hm, u, hu, ht⟩ hadd
    obtain ⟨p, slot, type', -, -, -, rfl, -⟩ := Document.addChild_eq_ok hadd
    exact ⟨hm, _, Document.segment?_append_kept hu, ht⟩

/-- Below a segment both readers make the same of the same, or neither makes anything. -/
theorem readSegments_iff {m : MessageType} (hm : m.Resolved) (hread : ∀ t ∈ m.segments, ∀ decl ∈ t.fields, Legible decl.name)
    (ns : String) : ∀ (natives : List NativeSegment) {d : Document} {id : Nat} {s : Segment}, d.schema = m →
      d.segment? id = some s → s.type ∈ m.allSegments → AllDeclared m s.type natives → ∀ d',
      Native.readSegments d id natives = .ok d' ↔ Xml.readSegments ns d id (elementsOf ns natives) = .ok d'
  | [], d, id, s, _, _, _, _, d' => by
    rw [Native.readSegments, elementsOf, Xml.readSegments, Except.ok.injEq, Except.ok.injEq]
  | .mk type values children :: rest, d, id, s, hschema, hs, hown, hdeclared, d' => by
    obtain ⟨hname, hchild, hrest⟩ := hdeclared
    have hescape : Name.unescape (Name.escape type) = type := Name.unescape_escape hname
    rw [elementsOf, elementOf, Native.readSegments_cons_iff, Xml.readSegments_cons_iff]
    simp only [NativeSegment.type, hescape, Xml.inNamespace, BEq.rfl, true_and]
    -- the fields and what stands below
    have hone : ∀ d₁ child d₂, d.addChild id type = .ok (d₁, child) →
        (Native.readSegment d₁ child (.mk type values children) = .ok d₂ ↔
          ∃ filled, Xml.applyAttributes (fun d name text => d.setWire child name text)
              ⟨some ns, Name.escape type, [], fieldsOf values⟩ d₁ = .ok filled ∧
            Xml.readWrappers ns filled child (wrapperOf (elementsOf ns children)) = .ok d₂) := by
      intro d₁ child d₂ hadd
      obtain ⟨p, slot, t, hp, hfound, -, rfl, rfl⟩ := Document.addChild_eq_ok hadd
      obtain rfl : p = s := Option.some_inj.mp (hp.symm.trans hs)
      rw [hschema] at hfound
      obtain ⟨-, hbelow, -, -⟩ := hm.childOf?_some hown hfound
      have ht : t ∈ m.allSegments := List.mem_cons_of_mem _ hbelow
      obtain ⟨hdistinct, hnames, hdeclared⟩ := hchild slot t hfound
      have hnew : (d.append id p t).segment? d.segmentCount = some (.blank t (some id) (p.level + 1)) :=
        Document.segment?_append_new (Document.segment?_lt hs)
      have hfields := applyFields_iff (h := ⟨some ns, Name.escape type, [], fieldsOf values⟩) hnew (hm.fields t ht) rfl
        (hread t hbelow) hdistinct hnames rfl
      have hmore : ∀ fields,
          Native.readSegments ((d.append id p t).putFields d.segmentCount fields) d.segmentCount children = .ok d₂ ↔
            Xml.readSegments ns ((d.append id p t).putFields d.segmentCount fields) d.segmentCount
              (elementsOf ns children) = .ok d₂ := by
        intro fields
        have hfilled : ((d.append id p t).putFields d.segmentCount fields).segment? d.segmentCount =
            some { Segment.blank t (some id) (p.level + 1) with fields := fields } := by
          rw [Document.segment?_putFields, hnew, Option.map_some, if_pos rfl]
        have hschema' : ((d.append id p t).putFields d.segmentCount fields).schema = m := hschema
        exact readSegments_iff hm hread ns children hschema' hfilled ht hdeclared d₂
      rw [Native.readSegment_iff]
      constructor
      · rintro ⟨u, fields, hu, hdecoded, hsegments⟩
        obtain rfl := Option.some_inj.mp (hnew.symm.trans hu)
        refine ⟨_, (hfields _).mpr ⟨fields, hdecoded, rfl⟩, ?_⟩
        rw [readWrappers_wrapperOf]
        exact (hmore fields).mp hsegments
      · rintro ⟨filled, happly, hwrapped⟩
        obtain ⟨fields, hdecoded, rfl⟩ := (hfields _).mp happly
        rw [readWrappers_wrapperOf] at hwrapped
        exact ⟨_, fields, hnew, hdecoded, (hmore fields).mpr hwrapped⟩
    -- what stands behind
    have hbehind : ∀ d₁ child d₂, d.addChild id type = .ok (d₁, child) →
        Native.readSegment d₁ child (.mk type values children) = .ok d₂ →
        (Native.readSegments d₂ id rest = .ok d' ↔ Xml.readSegments ns d₂ id (elementsOf ns rest) = .ok d') := by
      intro d₁ child d₂ hadd hsegment
      obtain ⟨p, slot, t, hp, -, -, rfl, rfl⟩ := Document.addChild_eq_ok hadd
      have hschema₁ : (d.append id p t).schema = m := hschema
      obtain ⟨hschema₂, u, hu, htype⟩ :=
        readSegment_keepsType hschema₁ (Document.segment?_append_kept hs) hsegment
      exact readSegments_iff hm hread ns rest hschema₂ hu (htype ▸ hown) (htype ▸ hrest) d'
    constructor
    · rintro ⟨d₁, child, d₂, hadd, hsegment, hmore⟩
      obtain ⟨filled, happly, hwrapped⟩ := (hone d₁ child d₂ hadd).mp hsegment
      exact ⟨d₁, child, filled, d₂, hadd, happly, hwrapped, (hbehind d₁ child d₂ hadd hsegment).mp hmore⟩
    · rintro ⟨d₁, child, filled, d₂, hadd, happly, hwrapped, hmore⟩
      have hsegment := (hone d₁ child d₂ hadd).mpr ⟨filled, happly, hwrapped⟩
      exact ⟨d₁, child, d₂, hadd, hsegment, (hbehind d₁ child d₂ hadd hsegment).mpr hmore⟩

/-! ## Documents -/

variable {schema : Definition} {r : Registry} {m : MessageType}

/-- Both boundaries read the same. Let no field of a compiled message type be passed over or have `_-` in its name. A
native document holds anything under control names, no values at its root, and below that any wire strings under
declared names of segments of any types. It is read exactly if its elements are, and they are the same document. -/
theorem readers_agree (hr : Registry.compile schema = .ok r) (hm : m ∈ r.messageTypes)
    (hread : ∀ t ∈ m.segments, ∀ decl ∈ t.fields, Legible decl.name) {n : NativeDocument}
    (hheader : (n.header.map Prod.fst).Nodup) (hroot : n.root.values = []) (hdeclared : AllDeclared m m.root n.root.children)
    (top : Head) (ns : String) (creation : Stamp) (d : Document) :
    Native.readDocument m creation n = .ok d ↔ Xml.readDocument m ns creation (documentOf top ns n) = .ok d := by
  have hresolved := Registry.resolved hr hm
  obtain ⟨key, control, ⟨type, values, children⟩⟩ := n
  obtain rfl : values = [] := hroot
  generalize hstart : ({ Document.new m creation with
    header := Native.readHeader control (Document.seededHeader m.key) } : Document) = start
  have hblank : start.segment? Document.rootId = some (.blank m.root none 0) := by
    rw [← hstart]
    rfl
  have hxml : Xml.readDocument m ns creation (documentOf top ns ⟨key, control, .mk type [] children⟩) =
      Xml.readSegments ns start Document.rootId (elementsOf ns children) := by
    have hhead : Xml.readHeader { top with attributes := headerOf control } (.new m creation) = .ok start :=
      hstart ▸ readHeader_headerOf hheader rfl (.new m creation)
    rw [Xml.readDocument, documentOf]
    simp only [Element.head, hhead]
    exact readWrappers_wrapperOf _
  have hnative : Native.readDocument m creation ⟨key, control, .mk type [] children⟩ = .ok d ↔
      Native.readSegments start Document.rootId children = .ok d := by
    have hput : start.putFields Document.rootId [] = start := by
      have hnone : (Segment.blank m.root none 0).fields = [] := by
        show List.replicate m.root.fields.length none = []
        rw [hresolved.rootFields, List.length_nil, List.replicate_zero]
      rw [← hnone]
      exact Document.putFields_self hblank
    have hfields : (Segment.blank m.root none 0).type.fields.mapM (Native.decodeField []) = .ok [] := by
      show m.root.fields.mapM (Native.decodeField []) = .ok []
      rw [hresolved.rootFields]
      rfl
    show Native.readSegment { Document.new m creation with
      header := Native.readHeader control (Document.seededHeader m.key) } Document.rootId (.mk type [] children) = .ok d ↔ _
    rw [hstart, Native.readSegment_iff]
    constructor
    · rintro ⟨s, fields, hs, hdecoded, hmore⟩
      obtain rfl := Option.some_inj.mp (hblank.symm.trans hs)
      obtain rfl := Except.ok.inj (hfields.symm.trans hdecoded)
      exact hput ▸ hmore
    · intro hmore
      exact ⟨_, [], hblank, hfields, hput.symm ▸ hmore⟩
  rw [hxml, hnative]
  refine readSegments_iff hresolved hread ns children ?_ hblank List.mem_cons_self hdeclared d
  rw [← hstart]
  rfl

/-- Deliveries in a namespace of their own, in at most two parts. -/
def deliveryType : MessageDef :=
  { key := ⟨"R", "/BIZ/DELIVERY", "", "", ""⟩
    root := [{ segmentType := "/BIZ/PART", maxOccurrence := 2 }]
    segments :=
      [{ segmentType := "/BIZ/PART", fields := [{ name := "/BIZ/NUMBER", type := .int4 }, { name := "NOTE", type := .char }] }] }

def deliverySchema : MessageType := (Compile.compileMessageType deliveryType).toOption.get rfl

/-- A delivery of parts, asked for by local and by qualified names, with the wire strings of their numbers. -/
def delivery (numbers : List (String × String)) : NativeDocument :=
  { key := deliveryType.key
    header := [("DOCNUM", "17"), ("CREDAT", "yesterday")]
    root := .mk "ROOT" [] (numbers.map fun (type, number) => .mk type [("NOTE", ""), ("/BIZ/NUMBER", number)] []) }

/-- Deliveries that are refused: for a number that is none, for a part that there is not, and for a part too many. -/
def refusedDeliveries : List NativeDocument :=
  [delivery [("PART", "7x")], delivery [("PIECE", "7")], delivery [("PART", "1"), ("PART", "2"), ("PART", "3")]]

theorem readers_agree_delivery :
    let top : Head := ⟨none, "document", [], []⟩
    let creation : Stamp := ⟨⟨2024, 3, 1, by decide⟩, ⟨8, 30, 0, 0, by decide⟩⟩
    let accepted := delivery [("PART", "7"), ("/BIZ/PART", "")]
    (∃ d, Native.readDocument deliverySchema creation accepted = .ok d ∧
      Xml.readDocument deliverySchema "ns" creation (documentOf top "ns" accepted) = .ok d) ∧
    ∀ n ∈ refusedDeliveries, ∀ d, Xml.readDocument deliverySchema "ns" creation (documentOf top "ns" n) ≠ .ok d := by
  intro top creation accepted
  have hr : Registry.compile { messageTypes := [deliveryType] } = .ok ⟨[deliverySchema], [], []⟩ := rfl
  have hread : ∀ t ∈ deliverySchema.segments, ∀ decl ∈ t.fields, Legible decl.name := by decide +kernel
  refine ⟨?_, ?_⟩
  · obtain ⟨d, hd⟩ := Outcome.exists_ok (x := Native.readDocument deliverySchema creation accepted) (by decide +kernel)
    have hdeclared : AllDeclared deliverySchema deliverySchema.root accepted.root.children := by decide +kernel
    exact ⟨d, hd, (readers_agree hr List.mem_cons_self hread (by decide +kernel) rfl hdeclared top "ns" creation d).mp hd⟩
  · have hall : ∀ n ∈ refusedDeliveries, (n.header.map Prod.fst).Nodup ∧ n.root.values = [] ∧
        AllDeclared deliverySchema deliverySchema.root n.root.children ∧
        (Native.readDocument deliverySchema creation n).toOption.isNone := by decide +kernel
    intro n hn d h
    obtain ⟨hheader, hroot, hdeclared, hnone⟩ := hall n hn
    have hnative := (readers_agree hr List.mem_cons_self hread hheader hroot hdeclared top "ns" creation d).mpr h
    rw [hnative] at hnone
    cases hnone

end Boundaries

end DocWire
