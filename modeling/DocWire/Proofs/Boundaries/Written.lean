/-
  DocWire.Proofs.Boundaries.Written — both boundaries write the same.

  A message is written as XML or handed to a connector. The two writers are separate recursions: one makes
  elements with attributes, wraps the children of segments, and numbers paths; the other makes native objects,
  and leaves out tables without rows. Both encode the set fields of a segment or record before what lies below
  it, from left to right, and stop at the first value without a wire string.

  `Agree` says what comes of that for a list of entries: where one of them has no wire string, both writers
  fail, with the name of the first such field and the same cause; where all have one, both succeed with results
  that correspond. Writers that run one after the other agree on the entries of both (`Agree.step`), so each
  recursion is followed once. What corresponds is told on the tree or record that was written, level by level
  (`SameSegment`, `SameRecord`).
-/

import DocWire.Proofs.Connector.Documents
import DocWire.Proofs.Parameters.Arise
import DocWire.Proofs.Xml.Document
import DocWire.Proofs.Xml.Parameters

namespace DocWire.Boundaries

open Markup (Written)
open Xml (Attributes)

/-! ## Agreement -/

section Agree

variable {α β γ δ : Type} {entries more : List (FieldDecl × Value)} {R : α → β → Prop} {S : γ → δ → Prop}
  {x : Except XmlError α} {y : Except ConnectorError β}

/-- Two writers of the same entries: both refuse the first field whose value has no wire string, for the same
cause, or both succeed and their results correspond. -/
def Agree (entries : List (FieldDecl × Value)) (R : α → β → Prop) (x : Except XmlError α)
    (y : Except ConnectorError β) : Prop :=
  match firstFault? entries with
  | some (e, cause) =>
    x = .error (.encode e.1.name cause) ∧ y = .error (.field e.1.name e.1.type e.2.display cause)
  | none => ∃ a b, x = .ok a ∧ y = .ok b ∧ R a b

theorem Agree.done {a : α} {b : β} (h : R a b) : Agree [] R (.ok a) (.ok b) := ⟨a, b, rfl, rfl, h⟩

/-- Where one of two writers that agree succeeds, so does the other, and the results correspond. -/
theorem Agree.of_ok {b : β} (h : Agree entries R x y) (hy : y = .ok b) : ∃ a, x = .ok a ∧ R a b := by
  unfold Agree at h
  split at h
  · rw [hy] at h
    cases h.2
  · obtain ⟨a, b', ha, hb, hr⟩ := h
    rw [hy, Except.ok.injEq] at hb
    exact ⟨a, ha, hb ▸ hr⟩

/-- Writers that agree succeed exactly where all entries have wire strings. -/
theorem Agree.succeed_iff (h : Agree entries R x y) :
    ((∃ a, x = .ok a) ↔ ∀ e ∈ entries, Encodes e) ∧ ((∃ b, y = .ok b) ↔ ∀ e ∈ entries, Encodes e) := by
  rw [← firstFault?_eq_none]
  unfold Agree at h
  cases hfault : firstFault? entries with
  | some fault =>
    rw [hfault] at h
    obtain ⟨hx, hy⟩ := h
    refine ⟨iff_of_false ?_ (fun hn => by cases hn), iff_of_false ?_ (fun hn => by cases hn)⟩
    · rintro ⟨a, ha⟩
      rw [hx] at ha
      cases ha
    · rintro ⟨b, hb⟩
      rw [hy] at hb
      cases hb
  | none =>
    rw [hfault] at h
    obtain ⟨a, b, ha, hb, -⟩ := h
    exact ⟨iff_of_true ⟨a, ha⟩ rfl, iff_of_true ⟨b, hb⟩ rfl⟩

/-- Writers that go on where others have ended agree on the entries of both. -/
theorem Agree.step {z : Except XmlError γ} {w : Except ConnectorError δ} (h : Agree entries R x y)
    (hnext : ∀ a b, x = .ok a → y = .ok b → R a b → Agree more S z w)
    (hx : ∀ e, x = .error e → z = .error e := by intro e he; rw [he])
    (hy : ∀ e, y = .error e → w = .error e := by intro e he; rw [he]) : Agree (entries ++ more) S z w := by
  unfold Agree at h
  unfold Agree
  rw [firstFault?_append]
  cases hfault : firstFault? entries with
  | some fault =>
    rw [hfault] at h
    exact ⟨hx _ h.1, hy _ h.2⟩
  | none =>
    rw [hfault] at h
    obtain ⟨a, b, ha, hb, hr⟩ := h
    exact hnext a b ha hb hr

theorem Agree.map {f : α → γ} {g : β → δ} (h : Agree entries R x y) (hmap : ∀ a b, R a b → S (f a) (g b)) :
    Agree entries S (x.map f) (y.map g) := by
  unfold Agree at h ⊢
  cases hfault : firstFault? entries with
  | some fault =>
    rw [hfault] at h
    obtain ⟨rfl, rfl⟩ := h
    exact ⟨rfl, rfl⟩
  | none =>
    rw [hfault] at h
    obtain ⟨a, b, rfl, rfl, hr⟩ := h
    exact ⟨f a, g b, rfl, rfl, hmap a b hr⟩

theorem Agree.map_left {T : γ → β → Prop} {f : α → γ} (h : Agree entries R x y) (hmap : ∀ a b, R a b → T (f a) b) :
    Agree entries T (x.map f) y := by
  have hmapped := h.map (f := f) (g := id) hmap
  cases y with
  | error e => exact hmapped
  | ok b => exact hmapped

end Agree

/-! ## Fields -/

/-- The writers of fields agree on the entries they are given. -/
theorem fields_agree (entries : List (FieldDecl × Value)) :
    Agree entries (fun attrs values => attrs = entries.map Xml.attributeOf ∧ values = entries.map Native.valueOf ∧
      ∀ e ∈ entries, Encodes e) (Xml.fieldAttributes entries) (Native.encodeEntries entries) := by
  induction entries with
  | nil =>
    refine .done ⟨rfl, rfl, ?_⟩
    intro e he
    cases he
  | cons e rest ih =>
    obtain ⟨decl, value⟩ := e
    cases hencode : Coercion.encode decl.format value with
    | error cause =>
      have hfault : firstFault? ((decl, value) :: rest) = some ((decl, value), cause) := by
        simp [firstFault?, fault?, hencode]
      have hattrs : Xml.fieldAttributes ((decl, value) :: rest) = .error (.encode decl.name cause) := by
        rw [Xml.fieldAttributes, List.mapM_cons]
        simp only [hencode]
        rfl
      have hvalues : Native.encodeEntries ((decl, value) :: rest) =
          .error (.field decl.name decl.type value.display cause) := by
        rw [Native.encodeEntries, List.mapM_cons]
        simp only [Native.encodeField, hencode]
        rfl
      rw [Agree, hfault]
      exact ⟨hattrs, hvalues⟩
    | ok wire =>
      obtain ⟨-, -, rfl⟩ := Coercion.encode_eq_ok.mp hencode
      have hfault : firstFault? ((decl, value) :: rest) = firstFault? rest := by
        simp [firstFault?, fault?, hencode]
      have hattrs : Xml.fieldAttributes ((decl, value) :: rest) =
          (Xml.fieldAttributes rest).map (Xml.attributeOf (decl, value) :: ·) := by
        rw [Xml.fieldAttributes, List.mapM_cons]
        simp only [hencode]
        rfl
      have hvalues : Native.encodeEntries ((decl, value) :: rest) =
          (Native.encodeEntries rest).map (Native.valueOf (decl, value) :: ·) := by
        rw [Native.encodeEntries, List.mapM_cons]
        simp only [Native.encodeField, hencode]
        rfl
      rw [Agree, hfault, hattrs, hvalues]
      refine ih.map ?_
      rintro attrs values ⟨rfl, rfl, hall⟩
      refine ⟨rfl, rfl, ?_⟩
      intro e he
      rcases List.mem_cons.mp he with rfl | he
      · exact hencode
      · exact hall e he

/-- An element and a native object carry the same wire strings. Behind attributes of its own the element has one
for every entry, under the escaped name of the field; under its declared name the native object has the same
string, and it has no others. -/
def SameWires (own : List String) (entries : List (FieldDecl × Value)) (attrs : Attributes) (values : WireValues) : Prop :=
  ∃ front wires, attrs = front ++ wires ∧ front.map Prod.fst = own ∧
    List.Forall₂ (fun e attr => attr.1 = Name.escape e.1.name ∧ Coercion.encode e.1.format e.2 = .ok attr.2 ∧
      values.lookup e.1.name = some attr.2) entries wires ∧
    values.map Prod.fst = entries.map (·.1.name)

/-- Fields that are told apart are found under their names. -/
theorem lookup_valueOf {entries : List (FieldDecl × Value)} (hnd : (entries.map (·.1.name)).Nodup)
    {e : FieldDecl × Value} (he : e ∈ entries) : (entries.map Native.valueOf).lookup e.1.name = some (wireOf e) := by
  have hvalues : entries.map Native.valueOf =
      entries.filterMap fun e => (some (wireOf e)).map fun wire => (e.1.name, wire) := by
    simp only [Option.map_some, List.filterMap_eq_map']
    rfl
  rw [hvalues]
  exact Lookup.lookup_filterMap (g := fun e => some (wireOf e)) hnd he

theorem sameWires {entries : List (FieldDecl × Value)} (hnd : (entries.map (·.1.name)).Nodup) (front : Attributes)
    (henc : ∀ e ∈ entries, Encodes e) :
    SameWires (front.map Prod.fst) entries (front ++ entries.map Xml.attributeOf) (entries.map Native.valueOf) := by
  refine ⟨front, _, rfl, rfl, ?_, ?_⟩
  · rw [List.forall₂_map_right_iff, List.forall₂_same]
    intro e he
    exact ⟨rfl, henc e he, lookup_valueOf hnd he⟩
  · rw [List.map_map]
    rfl

/-! ## Documents -/

mutual

/-- The element of a name and the native segment that a tree of segments is written as. -/
def SameSegment (pre name : String) : Tree Segment → Written → NativeSegment → Prop
  | .node s children, .mk name' attrs below, .mk type values natives =>
    name' = name ∧ type = s.type.name ∧ SameWires ["parent", "document"] s.entries attrs values ∧
      ∃ path parts, below = Xml.wrapped path parts ∧ SameSegments pre children parts natives
termination_by structural t => t

def SameSegments (pre : String) : List (Tree Segment) → List Written → List NativeSegment → Prop
  | [], [], [] => True
  | t :: ts, w :: ws, n :: ns =>
    SameSegment pre (pre ++ ":" ++ Name.escape t.value.type.name) t w n ∧ SameSegments pre ts ws ns
  | _, _, _ => False
termination_by structural ts => ts

end

mutual

theorem segment_agree {m : MessageType} (hm : m.Resolved) {pre docPath : String} :
    ∀ (t : Tree Segment) {parentPath path : String}, t.Fits m → Agree (t.preorder.flatMap Segment.entries)
      (SameSegment pre (pre ++ ":" ++ Name.escape t.value.type.name) t)
      (Xml.encodeSegment pre docPath parentPath path t) (Native.ofSegment t)
  | .node s children, parentPath, path, hfits => by
    obtain ⟨hown, -, -, hchildren⟩ := hfits
    rw [Xml.encodeSegment, Native.ofSegment, Tree.preorder, List.flatMap_cons]
    refine (fields_agree s.entries).step ?_
    rintro attrs values hattrs hvalues ⟨rfl, rfl, henc⟩
    rw [hattrs, hvalues]
    refine (segments_agree hm children hchildren).map ?_
    intro below natives hbelow
    have hwires := sameWires (Segment.entries_nodup (hm.fields _ hown)) [("parent", parentPath), ("document", docPath)] henc
    exact ⟨rfl, rfl, hwires, _, below, rfl, hbelow⟩

theorem segments_agree {m : MessageType} (hm : m.Resolved) {pre docPath : String} :
    ∀ (ts : List (Tree Segment)) {type : SegmentType} {level : Nat} {path : String} {before : List String},
      Tree.AllFit m type level ts → Agree ((Tree.preorderAll ts).flatMap Segment.entries) (SameSegments pre ts)
        (Xml.encodeSegments pre docPath path before ts) (Native.ofSegments ts)
  | [], _, _, _, _, _ => by
    rw [Xml.encodeSegments, Native.ofSegments]
    exact .done trivial
  | t :: rest, type, level, path, before, hfits => by
    obtain ⟨-, hfirst, hrest⟩ := hfits
    rw [Xml.encodeSegments, Native.ofSegments, Tree.preorderAll, List.flatMap_append]
    refine (segment_agree hm t hfirst).step ?_
    intro w n hw hn hsame
    rw [hw, hn]
    refine (segments_agree hm rest hrest).map ?_
    intro ws ns hmore
    exact ⟨hsame, hmore⟩

end

theorem root_agree {m : MessageType} (hm : m.Resolved) {pre docPath : String} {t : Tree Segment} (hfits : t.Fits m) :
    Agree (t.preorder.flatMap Segment.entries) (SameSegment pre "rootSegment" t) (Xml.encodeRoot pre docPath t)
      (Native.ofSegment t) := by
  cases t with
  | node s children =>
    obtain ⟨hown, -, -, hchildren⟩ := hfits
    rw [Xml.encodeRoot, Native.ofSegment, Tree.preorder, List.flatMap_cons]
    refine (fields_agree s.entries).step ?_
    rintro attrs values hattrs hvalues ⟨rfl, rfl, henc⟩
    rw [hattrs, hvalues]
    refine (segments_agree hm children hchildren).map ?_
    intro below natives hbelow
    have hwires := sameWires (Segment.entries_nodup (hm.fields _ hown)) [("parent", docPath), ("document", docPath)] henc
    exact ⟨rfl, rfl, hwires, _, below, rfl, hbelow⟩

/-- The attributes of a document and a control record tell the same header and the same creation stamp. -/
def SameHeader (d : Document) (attrs : Attributes) (control : WireValues) : Prop :=
  (∀ f, attrs.lookup f.attributeName = d.header.get f ∧ control.lookup f.controlName = d.header.get f) ∧
    (attrs.lookup creationDateAttribute = some d.creation.date.compact ∧
      control.lookup creationDateControl = some d.creation.date.compact) ∧
    (attrs.lookup creationTimeAttribute = some d.creation.time.compact ∧
      control.lookup creationTimeControl = some d.creation.time.compact)

/-- The element of a name and the native document that a document is written as. -/
def SameDocument (name : String) (d : Document) : Written → NativeDocument → Prop
  | .mk name' attrs below, n =>
    name' = name ∧ n.key = d.key ∧ SameHeader d attrs n.header ∧
      ∃ root, below = [root] ∧ SameSegment (messagePrefix d.key.basicType) "rootSegment" d.tree root n.root

def SameDocuments : List Document → List Written → List NativeDocument → Prop
  | [], [], [] => True
  | d :: ds, w :: ws, n :: ns => SameDocument "document" d w n ∧ SameDocuments ds ws ns
  | _, _, _ => False

/-- Attributes in front that are no header fields do not hide any. -/
theorem sameHeader (d : Document) {front : Attributes}
    (hfront : ∀ a ∈ front, ¬ Markup.Simple a.1 ∨ a.1 = "parent") :
    SameHeader d (front ++ Xml.headerAttributes d) (Native.controlRecord d) := by
  have hbehind : ∀ name, Markup.Simple name → name ≠ "parent" →
      (front ++ Xml.headerAttributes d).lookup name = (Xml.headerAttributes d).lookup name := by
    intro name hsimple hne
    refine Lookup.lookup_behind ?_
    intro hm
    obtain ⟨a, ha, rfl⟩ := List.mem_map.mp hm
    rcases hfront a ha with h | h
    · exact h hsimple
    · exact hne h
  obtain ⟨hfields, hdate, htime⟩ := Xml.lookup_headerAttributes d
  obtain ⟨hfields', hdate', htime'⟩ := Native.lookup_controlRecord d
  have hparent : creationDateAttribute ≠ "parent" ∧ creationTimeAttribute ≠ "parent" := by decide
  refine ⟨?_, ⟨?_, hdate'⟩, ?_, htime'⟩
  · intro f
    obtain ⟨hsimple, hne, -⟩ := Xml.header_names f
    rw [hbehind _ hsimple hne]
    exact ⟨hfields f, hfields' f⟩
  · rw [hbehind _ Xml.creation_names.1 hparent.1, hdate]
  · rw [hbehind _ Xml.creation_names.2 hparent.2, htime]

theorem document_agree {d : Document} (hm : d.schema.Resolved) (hd : d.Sound) {name docPath : String} {front : Attributes}
    (hfront : ∀ a ∈ front, ¬ Markup.Simple a.1 ∨ a.1 = "parent") :
    Agree (d.tree.preorder.flatMap Segment.entries) (SameDocument name d) (Xml.encodeDocumentAs name front docPath d)
      (Native.ofDocument d) := by
  refine (root_agree hm hd.tree_fits.1).map ?_
  intro root n hroot
  exact ⟨rfl, rfl, sameHeader d hfront, root, rfl, hroot⟩

/-- What is written of a document, in the order in which it is written. -/
def documentEntries (d : Document) : List (FieldDecl × Value) := d.tree.preorder.flatMap Segment.entries

theorem mem_documentEntries {d : Document} (hd : d.Sound) {e : FieldDecl × Value} :
    e ∈ documentEntries d ↔ ∃ i s, d.segment? i = some s ∧ e ∈ s.entries := by
  rw [documentEntries, List.mem_flatMap]
  constructor
  · rintro ⟨s, hs, he⟩
    obtain ⟨i, hi⟩ := hd.mem_tree_iff.mp hs
    exact ⟨i, s, hi, he⟩
  · rintro ⟨i, s, hi, he⟩
    exact ⟨s, hd.mem_tree_iff.mpr ⟨i, hi⟩, he⟩

theorem documents_agree {ds : List Document} (hds : ∀ d ∈ ds, d.schema.Resolved ∧ d.Sound) (i : Nat) :
    Agree (ds.flatMap documentEntries) (SameDocuments ds) (Xml.encodeListed i ds) (ds.mapM Native.ofDocument) := by
  induction ds generalizing i with
  | nil =>
    rw [Xml.encodeListed, List.mapM_nil]
    exact .done trivial
  | cons d rest ih =>
    obtain ⟨hm, hd⟩ := hds d List.mem_cons_self
    have hfront : ∀ a ∈ [("parent", "/")], ¬ Markup.Simple a.1 ∨ a.1 = "parent" := by
      intro a ha
      rw [List.mem_singleton.mp ha]
      exact .inr rfl
    rw [Xml.encodeListed, List.mapM_cons, List.flatMap_cons]
    refine (document_agree hm hd hfront).step ?_ (fun e he => by rw [he]) (fun e he => by rw [he]; rfl)
    intro w n hw hn hsame
    rw [hw, hn]
    refine (ih (fun d hd => hds d (List.mem_cons_of_mem _ hd)) (i + 1)).map ?_
    intro ws ns hmore
    exact ⟨hsame, hmore⟩

/-! ## Parameter sets -/

mutual

/-- The element of a name and the native record that a record is written as; `own` are the names of the attributes
that stand before the fields. -/
def SameRecord (pre : String) (own : List String) (name : String) : Record → Written → NativeRecord → Prop
  | .mk f shape slots, .mk name' attrs below, n =>
    name' = name ∧ SameWires own (Record.mk f shape slots).entries attrs n.values ∧
      SameSlots pre n shape.members slots below
termination_by structural r => r

/-- The elements of the slots, one after the other, and what a native record has under the names of the members. -/
def SameSlots (pre : String) (n : NativeRecord) : List (Member Shape) → List (Slot Record) → List Written → Prop
  | [], [], ws => ws = []
  | m :: ms, slot :: rest, ws =>
    ∃ front behind, ws = front ++ behind ∧ SameSlot pre n m.name slot front ∧ SameSlots pre n ms rest behind
  | _, _, _ => False
termination_by structural _ slots => slots

/-- A nested record has one element and one native record, a table one element with as many rows as the native
table, and any other slot has neither. -/
def SameSlot (pre : String) (n : NativeRecord) (name : String) : Slot Record → List Written → Prop
  | .absent, ws => ws = [] ∧ n.nested.lookup name = none ∧ n.rows name = []
  | .value _, ws => ws = [] ∧ n.nested.lookup name = none ∧ n.rows name = []
  | .nested r, ws => ∃ w inner, ws = [w] ∧ n.nested.lookup name = some inner ∧
      SameRecord pre ["parent"] (pre ++ ":" ++ Name.escape name) r w inner
  | .table rows, ws => ∃ path below, ws = [.mk (pre ++ ":" ++ Name.escape name) [("parent", path)] below] ∧
      n.nested.lookup name = none ∧ SameRows pre rows below (n.rows name)
termination_by structural slot => slot

def SameRows (pre : String) : List Record → List Written → List NativeRecord → Prop
  | [], [], [] => True
  | r :: rs, w :: ws, n :: ns => SameRecord pre ["parent"] "row" r w n ∧ SameRows pre rs ws ns
  | _, _, _ => False
termination_by structural rows => rows

end

/-- What the slots of members come to natively is named by those members. -/
def Named (names : List String) (parts : Native.Parts) : Prop :=
  (∀ p ∈ parts.1, p.1 ∈ names) ∧ ∀ p ∈ parts.2, p.1 ∈ names

/-- A native record has under these names what the parts have. -/
def Holds (names : List String) (parts : Native.Parts) (n : NativeRecord) : Prop :=
  ∀ name ∈ names, n.nested.lookup name = parts.1.lookup name ∧ n.tables.lookup name = parts.2.lookup name

theorem named_none (names : List String) : Named names ([], []) := by
  constructor
  · intro p hp
    cases hp
  · intro p hp
    cases hp

section Holds

variable {name : String} {parts : Native.Parts} {n : NativeRecord}

theorem Holds.nested (h : Holds [name] parts n) : n.nested.lookup name = parts.1.lookup name :=
  (h name (List.mem_singleton_self name)).1

theorem Holds.rows (h : Holds [name] parts n) : n.rows name = (parts.2.lookup name).getD [] := by
  rw [NativeRecord.rows, (h name (List.mem_singleton_self name)).2]

end Holds

/-- A name that no part has is not found. -/
theorem lookup_none {α : Type} {ps : List (String × α)} {name : String} {names : List String} (h : ∀ p ∈ ps, p.1 ∈ names)
    (hn : name ∉ names) : ps.lookup name = none := by
  refine Lookup.lookup_eq_none ?_
  intro hm
  obtain ⟨p, hp, rfl⟩ := List.mem_map.mp hm
  exact hn (h p hp)

/-- Of parts that are joined, each name is looked up in the part that has it. -/
theorem Holds.split {name : String} {names : List String} (hn : name ∉ names) {own more : Native.Parts}
    (hown : Named [name] own) (hmore : Named names more) {n : NativeRecord}
    (h : Holds (name :: names) (own.1 ++ more.1, own.2 ++ more.2) n) : Holds [name] own n ∧ Holds names more n := by
  constructor
  · intro x hx
    obtain rfl := List.mem_singleton.mp hx
    obtain ⟨h₁, h₂⟩ := h x List.mem_cons_self
    rw [List.lookup_append, lookup_none hmore.1 hn, Option.or_none] at h₁
    rw [List.lookup_append, lookup_none hmore.2 hn, Option.or_none] at h₂
    exact ⟨h₁, h₂⟩
  · intro x hx
    have hne : x ∉ [name] := by
      intro he
      exact hn (List.mem_singleton.mp he ▸ hx)
    obtain ⟨h₁, h₂⟩ := h x (List.mem_cons_of_mem _ hx)
    rw [List.lookup_append, lookup_none hown.1 hne, Option.none_or] at h₁
    rw [List.lookup_append, lookup_none hown.2 hne, Option.none_or] at h₂
    exact ⟨h₁, h₂⟩

mutual

theorem record_agree {pre : String} : ∀ (r : Record) (front : Attributes) {name path : String}, r.Sound → r.shape.Distinct →
    Agree (r.preorder.flatMap Record.entries) (SameRecord pre (front.map Prod.fst) name r)
      (Xml.encodeRecordAs pre name front path r) (Native.ofRecord r)
  | .mk f shape slots, front, name, path, hr, hd => by
    have hnames : ((Record.mk f shape slots).entries.map (·.1.name)).Nodup :=
      (Record.entries_sublist (.mk f shape slots)).nodup hd.members
    rw [Xml.encodeRecordAs, Native.ofRecord, Record.preorder, List.flatMap_cons]
    refine (fields_agree _).step ?_
    rintro attrs values hattrs hvalues ⟨rfl, rfl, henc⟩
    rw [hattrs, hvalues]
    refine (slots_agree slots _ hr hd.members fun m hm t ht => hd.below hm ht).map ?_
    rintro below ⟨nested, tables⟩ ⟨-, hsame⟩
    exact ⟨rfl, sameWires hnames front henc, hsame _ fun _ _ => ⟨rfl, rfl⟩⟩

theorem slots_agree {pre : String} : ∀ (slots : List (Slot Record)) (path : String) {f : Function} {ms : List (Member Shape)},
    Record.SlotsSound f ms slots → (ms.map Member.name).Nodup →
    (∀ m ∈ ms, ∀ t, m.reference? = some t → t.Distinct) →
    Agree ((Record.preorderSlots slots).flatMap Record.entries)
      (fun ws parts => Named (ms.map Member.name) parts ∧
        ∀ n, Holds (ms.map Member.name) parts n → SameSlots pre n ms slots ws)
      (Xml.encodeSlots pre path (ms.map Member.name) slots) (Native.ofSlots (ms.map Member.name) slots)
  | [], path, f, ms, hsound, _, _ => by
    cases ms with
    | cons m ms => exact hsound.elim
    | nil =>
      rw [Xml.encodeSlots, Native.ofSlots]
      exact .done ⟨named_none _, fun n _ => rfl⟩
  | slot :: rest, path, f, ms, hsound, hnd, hbelow => by
    cases ms with
    | nil => exact hsound.elim
    | cons m ms =>
      obtain ⟨hslot, hrest⟩ := hsound
      rw [List.map_cons, List.nodup_cons] at hnd
      rw [Xml.encodeSlots, Native.ofSlots, Record.preorderSlots, List.flatMap_append, List.map_cons, List.headD_cons,
        List.tail_cons]
      refine (slot_agree slot path hslot (hbelow m List.mem_cons_self)).step ?_
      rintro ws own hws hown ⟨hnamed, hsame⟩
      rw [hws, hown]
      refine (slots_agree rest path hrest hnd.2 fun m hm => hbelow m (List.mem_cons_of_mem _ hm)).map ?_
      rintro more parts ⟨hnamed', hmore⟩
      refine ⟨⟨?_, ?_⟩, ?_⟩
      · intro p hp
        rcases List.mem_append.mp hp with hp | hp
        · exact List.mem_cons.mpr (.inl (List.mem_singleton.mp (hnamed.1 p hp)))
        · exact List.mem_cons_of_mem _ (hnamed'.1 p hp)
      · intro p hp
        rcases List.mem_append.mp hp with hp | hp
        · exact List.mem_cons.mpr (.inl (List.mem_singleton.mp (hnamed.2 p hp)))
        · exact List.mem_cons_of_mem _ (hnamed'.2 p hp)
      · intro n hn
        obtain ⟨hfirst, hothers⟩ := Holds.split hnd.1 hnamed hnamed' hn
        exact ⟨ws, more, rfl, hsame n hfirst, hmore n hothers⟩

theorem slot_agree {pre : String} : ∀ (slot : Slot Record) (path : String) {f : Function} {m : Member Shape},
    Record.SlotSound f m slot → (∀ t, m.reference? = some t → t.Distinct) →
    Agree ((Record.preorderSlot slot).flatMap Record.entries)
      (fun ws parts => Named [m.name] parts ∧ ∀ n, Holds [m.name] parts n → SameSlot pre n m.name slot ws)
      (Xml.encodeSlot pre path (Name.escape m.name) slot) (Native.ofSlot m.name slot)
  | .absent, path, f, m, _, _ => by
    rw [Xml.encodeSlot, Native.ofSlot]
    exact .done ⟨named_none _, fun n hn => ⟨rfl, hn.nested, hn.rows⟩⟩
  | .value v, path, f, m, _, _ => by
    rw [Xml.encodeSlot, Native.ofSlot]
    exact .done ⟨named_none _, fun n hn => ⟨rfl, hn.nested, hn.rows⟩⟩
  | .nested r, path, f, m, hsound, hbelow => by
    cases m with
    | field decl => exact hsound.elim
    | table declared description row => exact hsound.elim
    | nested declared description shape =>
      obtain ⟨-, hshape, hr⟩ := hsound
      rw [Xml.encodeSlot, Native.ofSlot, Record.preorderSlot]
      refine (record_agree r [("parent", path)] hr (hshape ▸ hbelow shape rfl)).map ?_
      intro w inner hsame
      refine ⟨⟨?_, ?_⟩, fun n hn => ⟨w, inner, rfl, ?_, hsame⟩⟩
      · intro p hp
        rw [List.mem_singleton.mp hp]
        exact List.mem_singleton_self _
      · intro p hp
        cases hp
      · rw [hn.nested]
        exact List.lookup_cons_self
  | .table rows, path, f, m, hsound, hbelow => by
    cases m with
    | field decl => exact hsound.elim
    | nested declared description shape => exact hsound.elim
    | table declared description row =>
      rw [Xml.encodeSlot, Native.ofSlot, Record.preorderSlot]
      refine (rows_agree rows hsound (hbelow row rfl)).map ?_
      intro ws natives hsame
      refine ⟨⟨?_, ?_⟩, fun n hn => ⟨path, ws, rfl, hn.nested, ?_⟩⟩
      · intro p hp
        cases hp
      · intro p hp
        cases hempty : natives.isEmpty with
        | true =>
          simp [hempty] at hp
        | false =>
          simp [hempty] at hp
          rw [hp]
          exact List.mem_singleton_self _
      · -- a table without rows is left out natively, and then has no rows there either
        have hrows : n.rows declared = natives := by
          refine hn.rows.trans ?_
          cases natives with
          | nil => rfl
          | cons first others => simp
        exact hrows ▸ hsame

theorem rows_agree {pre : String} : ∀ (rows : List Record) {f : Function} {row : Shape} {path : String} {i : Nat},
    Record.RowsSound f row rows → row.Distinct →
    Agree ((Record.preorderRows rows).flatMap Record.entries) (SameRows pre rows)
      (Xml.encodeRows pre path i rows) (Native.ofRows rows)
  | [], f, row, path, i, _, _ => by
    rw [Xml.encodeRows, Native.ofRows]
    exact .done trivial
  | r :: rest, f, row, path, i, hsound, hd => by
    obtain ⟨⟨-, hshape, hr⟩, hrest⟩ := hsound
    rw [Xml.encodeRows, Native.ofRows, Record.preorderRows, List.flatMap_append]
    refine (record_agree r [("parent", path)] hr (hshape ▸ hd)).step ?_
    intro w n hw hn hsame
    rw [hw, hn]
    refine (rows_agree rest hrest hd).map ?_
    intro ws ns hmore
    exact ⟨hsame, hmore⟩

end

/-! ## Every message -/

/-- A name that declares a prefix is no simple name. -/
theorem not_simple_declaration (pre : String) : ¬ Markup.Simple ("xmlns:" ++ pre) := by
  rintro ⟨-, hcolon, -⟩
  refine hcolon ?_
  rw [String.toList_append]
  exact List.mem_append_left _ (by decide)

variable {schema : Definition} {r : Registry}

/-- Both boundaries write the same. Whatever comes about under a compiled registry, with any names and any values: XML
and the connector refuse the same documents, lists and parameter sets, at the same field and for the same cause, and
what they make of all others has the same wire strings at corresponding places, and the same headers. -/
theorem writers_agree (hr : Registry.compile schema = .ok r) (o : Options) :
    (∀ d, Document.Reach r d → Agree (documentEntries d)
      (fun text n => ∃ w, text = Xml.render o w ∧ SameDocument (Options.idocPrefix ++ ":Document") d w n)
      (Xml.documentText o d) (Native.ofDocument d)) ∧
    (∀ b, Batch.Reach r b → Agree (b.documents.flatMap documentEntries)
      (fun text ns => ∃ attrs ws, text = Xml.render o (.mk (Options.idocPrefix ++ ":DocumentList") attrs ws) ∧
        SameDocuments b.documents ws ns)
      (Xml.batchText o b) (Native.ofBatch b)) ∧
    ∀ x, Record.Arises r x → Agree (x.preorder.flatMap Record.entries)
      (fun text n => ∃ w, text = Xml.render o w ∧
        SameRecord (messagePrefix x.function.name) ["xmlns:" ++ Options.rfcPrefix, "xmlns:" ++ messagePrefix x.function.name]
          (Options.rfcPrefix ++ ":" ++ x.name) x w n)
      (Xml.recordText o x) (Native.ofRecord x) := by
  refine ⟨?_, ?_, ?_⟩
  · intro d hd
    obtain ⟨hm, hsound⟩ := hd.sound hr
    have hfront : ∀ a ∈ Xml.documentNamespaces o d.key, ¬ Markup.Simple a.1 ∨ a.1 = "parent" := by
      intro a ha
      rcases List.mem_cons.mp ha with rfl | ha
      · exact .inl (not_simple_declaration _)
      · rw [List.mem_singleton.mp ha]
        exact .inl (not_simple_declaration _)
    refine (document_agree (Registry.resolved hr hm) hsound hfront).map_left ?_
    intro w n hsame
    exact ⟨w, rfl, hsame⟩
  · intro b hb
    obtain ⟨hm, hall⟩ := hb.documents hr
    have hds : ∀ d ∈ b.documents, d.schema.Resolved ∧ d.Sound := by
      intro d hd
      obtain ⟨hschema, hsound⟩ := hall d hd
      exact ⟨hschema ▸ Registry.resolved hr hm, hsound⟩
    have hlist := (documents_agree hds 0).map_left (T := fun (w : Written) ns => ∃ attrs ws,
        w = .mk (Options.idocPrefix ++ ":DocumentList") attrs ws ∧ SameDocuments b.documents ws ns)
      (f := Written.mk (Options.idocPrefix ++ ":DocumentList") (Xml.documentNamespaces o b.key))
      fun ws ns hsame => ⟨_, ws, rfl, hsame⟩
    refine hlist.map_left ?_
    rintro w ns ⟨attrs, ws, rfl, hsame⟩
    exact ⟨attrs, ws, rfl, hsame⟩
  · intro x hx
    obtain ⟨hf, hshape, hsound⟩ := hx.sound
    have hresolved := (Registry.compile_functions hr).1 _ hf
    have hdistinct : x.shape.Distinct := by
      rcases hshape with hs | hs
      · exact hs ▸ hresolved.request
      · exact hs ▸ hresolved.response
    refine (record_agree x (Xml.functionNamespaces o x.function.name) hsound hdistinct).map_left ?_
    intro w n hsame
    exact ⟨w, rfl, hsame⟩

/-- The two items of an order, one with a price that has more places than are ever written out. -/
def overpriced : Document := Document.twoItems.edit (.set 3 "PRICE" (.decimal ⟨1, 5000⟩))

theorem writers_agree_order :
    (Agree (documentEntries Document.twoItems) (fun text n => ∃ w, text = Xml.render {} w ∧
        SameDocument (Options.idocPrefix ++ ":Document") Document.twoItems w n)
      (Xml.documentText {} Document.twoItems) (Native.ofDocument Document.twoItems)) ∧
    ((firstFault? (documentEntries overpriced)).map (·.1.1.name) = some "PRICE" ∧
      Agree (documentEntries overpriced) (fun text n => ∃ w, text = Xml.render {} w ∧
        SameDocument (Options.idocPrefix ++ ":Document") overpriced w n)
      (Xml.documentText {} overpriced) (Native.ofDocument overpriced)) ∧
    (Agree (Xml.twoOrders.documents.flatMap documentEntries) (fun text ns => ∃ attrs ws,
        text = Xml.render {} (.mk (Options.idocPrefix ++ ":DocumentList") attrs ws) ∧
          SameDocuments Xml.twoOrders.documents ws ns)
      (Xml.batchText {} Xml.twoOrders) (Native.ofBatch Xml.twoOrders)) ∧
    Agree (Xml.orderRequest.preorder.flatMap Record.entries) (fun text n => ∃ w, text = Xml.render {} w ∧
        SameRecord (messagePrefix Xml.orderRequest.function.name)
          ["xmlns:" ++ Options.rfcPrefix, "xmlns:" ++ messagePrefix Xml.orderRequest.function.name]
          (Options.rfcPrefix ++ ":" ++ Xml.orderRequest.name) Xml.orderRequest w n)
      (Xml.recordText {} Xml.orderRequest) (Native.ofRecord Xml.orderRequest) := by
  obtain ⟨hdocument, hlist, -⟩ := writers_agree Document.orders_compiled {}
  obtain ⟨-, -, hrecord⟩ := writers_agree Xml.orderCalls_compiled {}
  refine ⟨hdocument _ Document.twoItems_reach, ⟨by decide +kernel, hdocument _ (.edit _ _ Document.twoItems_reach)⟩,
    hlist _ Xml.twoOrders_reach, hrecord _ (.made _ Xml.orderRequest_reach)⟩

end DocWire.Boundaries
