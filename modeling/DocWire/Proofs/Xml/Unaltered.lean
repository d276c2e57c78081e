/-
  DocWire.Proofs.Xml.Unaltered — what is read of a written message is not silently another one.

  Names are written into markup as they are, whatever they are, so a text need not be accepted. Where it is, and no name
  in use can be mistaken (`Document.Carriable`, `Record.Carriable`), what is read is what was written
  (`messages_unaltered`). It is the element that was written (`elementOfText_accepted`), its prefix is bound to the
  namespace of the message where that is needed (`rebound`), and its names come back (`readable_of_readDocument`,
  `readable_of_readMembers`). So a colon in a name, two names with one markup form, or a namespace with references make a
  failure, and never another message.

  The names that are left out are mistaken indeed (`altered_filings`).
-/

import DocWire.Proofs.Parameters.Arise
import DocWire.Proofs.Xml.Accepted

namespace DocWire

/-- A document none of whose names is mistaken in markup. The key of its message type is read as itself, or as one that
the registry does not know; the segments below its root and their set fields are not mistaken. -/
structure Document.Carriable (r : Registry) (d : Document) : Prop where
  key : (∀ p ∈ d.key.parts, Name.Markless p) ∨ ∀ m, r.messageTypeById d.key.id ≠ .ok m
  segments : Tree.AllUnmistaken d.schema.ns d.schema.root d.tree.children

/-- A parameter set none of whose names is mistaken in markup. The name of its function is read as itself, or as one that
the registry does not know; the records in it are not mistaken; and at its top no field that is set is named as the
advice that is only given below. -/
structure Record.Carriable (reg : Registry) (r : Record) : Prop where
  function : Name.Markless r.function.name ∨
    ∀ f, reg.function (Name.unescape (Name.escape r.function.name)) ≠ .ok f
  records : ∀ x ∈ r.preorder, x.Unmistaken
  top : ∀ e ∈ r.entries, e.1.name ≠ "parent"

instance Document.Carriable.decidable (r : Registry) (d : Document) : Decidable (d.Carriable r) :=
  decidable_of_iff (((∀ p ∈ d.key.parts, Name.Markless p) ∨ ∀ m, r.messageTypeById d.key.id ≠ .ok m) ∧
      Tree.AllUnmistaken d.schema.ns d.schema.root d.tree.children)
    ⟨fun h => ⟨h.1, h.2⟩, fun h => ⟨h.key, h.segments⟩⟩

instance Record.Carriable.decidable (reg : Registry) (r : Record) : Decidable (r.Carriable reg) :=
  decidable_of_iff ((Name.Markless r.function.name ∨
      ∀ f, reg.function (Name.unescape (Name.escape r.function.name)) ≠ .ok f) ∧
      (∀ x ∈ r.preorder, x.Unmistaken) ∧ ∀ e ∈ r.entries, e.1.name ≠ "parent")
    ⟨fun h => ⟨h.1, h.2.1, h.2.2⟩, fun h => ⟨h.function, h.records, h.top⟩⟩

namespace Xml

open Markup (AllPlain AllSpelled Element ElementText Head OneUnnamed Scope Undeclaring Written elementsIn
  oneUnnamed_of_named readAs)

variable {schema : Definition} {r : Registry} {o o' : Options} {scope : Scope} {pre ns raw docPath : String}

/-- What is written below the top is read the same where the prefix of the message is bound to its namespace. -/
theorem rebound {kind kindUri : String} {ws : List Written} (hk : ElementText kind)
    (hb : Bound (messageScope kind kindUri pre raw) pre raw) (hu : ns ≠ "") (hws : ws = [] ∨ raw = ns)
    (hplain : AllPlain (messageScope kind kindUri pre raw) ws) :
    ∃ scope, Bound scope pre ns ∧ elementsIn (messageScope kind kindUri pre raw) ws = elementsIn scope ws ∧
      AllPlain scope ws := by
  rcases hws with rfl | rfl
  · exact ⟨messageScope kind kindUri pre ns, bound_declared hk hb.named hb.colonless hu, rfl, trivial⟩
  · exact ⟨_, hb, rfl, hplain⟩

/-! ## Documents -/

theorem decodeDocument_ok {creation : Stamp} {e : Element} {d : Document} (h : decodeDocument r o creation e = .ok d) :
    checkTop e.head o.idocNamespace ["Document"] = .ok () ∧ ∃ m ns, topMessageType r o e.head = .ok (m, ns) ∧
      readDocument m ns creation e = .ok d := by
  unfold decodeDocument at h
  split at h
  · cases h
  rename_i hcheck
  split at h
  · cases h
  rename_i m ns htop
  exact ⟨hcheck, m, ns, htop, h⟩

theorem encodeRoot_spelled (hpre : ElementText pre) {d : Document} (hm : d.schema.Resolved) (hd : d.Sound)
    (hnames : Tree.AllUnmistaken d.schema.ns d.schema.root d.tree.children) {root : Written}
    (h : encodeRoot pre docPath d.tree = .ok root) : AllSpelled [root] := by
  obtain ⟨hfits, htype, -, hempty⟩ := hd.tree_fits
  cases htree : d.tree with
  | node own children =>
    rw [htree] at h hempty hnames hfits htype
    obtain ⟨-, -, -, hall⟩ := hfits
    obtain htype : own.type = d.schema.root := htype
    rw [htype] at hall
    obtain ⟨below, hbelow, rfl⟩ := encodeRoot_ok h
    have hentries : own.entries = [] := by
      have hfields : own.fields = [] := hempty
      rw [Segment.entries, hfields, List.zip_nil_right]
      rfl
    rw [hentries]
    have hattrs : ∀ a ∈ [("parent", docPath), ("document", docPath)] ++ ([] : List (FieldDecl × Value)).map attributeOf,
        Undeclaring a.1 := fun a ha => undeclaring_of_simple ((advice_both docPath docPath).simple (by simpa using ha))
    have hone : OneUnnamed ([("parent", docPath), ("document", docPath)] ++ ([] : List (FieldDecl × Value)).map
        attributeOf) := oneUnnamed_attributes (advice_both docPath docPath) List.nodup_nil
    refine ⟨⟨bare_names.2.1.1, hattrs, hone, wrapped_spelled ?_⟩, trivial⟩
    exact encodeSegments_spelled hpre hm children hall hnames hbelow

/-- Where a document is read, its segments are read from what was written of them. -/
theorem readDocument_root_ok (hb : Bound scope pre raw) {own : Segment} {children : List (Tree Segment)} {root : Written}
    (h : encodeRoot pre docPath (.node own children) = .ok root) {m : MessageType} {head : Head} {creation : Stamp}
    {d : Document} (hread : readDocument m ns creation (.mk head (elementsIn scope [root])) = .ok d) :
    ∃ path below start, encodeSegments pre docPath path [] children = .ok below ∧
      root = .mk "rootSegment" ([("parent", docPath), ("document", docPath)] ++ own.entries.map attributeOf)
        (wrapped path below) ∧
      Holds m Document.rootId m.root start ∧ readSegments ns start Document.rootId (elementsIn scope below) = .ok d := by
  obtain ⟨below, hbelow, rfl⟩ := encodeRoot_ok h
  obtain ⟨started, e, start, hheader, hchildren, happly, hwrappers⟩ := readDocument_ok hread
  rw [Element.children, elementsIn, elementIn_bare hb bare_names.2.1.2, elementsIn] at hchildren
  obtain ⟨rfl, -⟩ := List.cons.inj hchildren
  rw [Element.children, readWrappers_wrapped hb] at hwrappers
  have hnew : Holds m Document.rootId m.root (.new m creation) := ⟨rfl, _, rfl, rfl⟩
  have hstarted : Holds m Document.rootId m.root started := readHeader_keeps (fun d header hd => hd) hnew hheader
  exact ⟨_, below, start, hbelow, rfl, applyAttributes_keeps (fun d name text d' hd => hd.setWire) hstarted happly,
    hwrappers⟩

/-- The root of a document that is read is read the same where the prefix of the message is bound to its namespace. -/
theorem root_rebound {kind kindUri : String} (hk : ElementText kind)
    (hb : Bound (messageScope kind kindUri pre raw) pre raw) (hu : ns ≠ "") {t : Tree Segment} {root : Written}
    (h : encodeRoot pre docPath t = .ok root) (hplain : AllPlain (messageScope kind kindUri pre raw) [root])
    {m : MessageType} {head : Head} {creation : Stamp} {d : Document}
    (hread : readDocument m ns creation (.mk head (elementsIn (messageScope kind kindUri pre raw) [root])) = .ok d) :
    ∃ scope, Bound scope pre ns ∧ elementsIn (messageScope kind kindUri pre raw) [root] = elementsIn scope [root] ∧
      AllPlain scope [root] := by
  cases t with
  | node own children =>
    obtain ⟨path, below, start, hbelow, rfl, -, hsegments⟩ := readDocument_root_ok hb h hread
    obtain ⟨⟨-, -, hsimple, hnd, hwrapped⟩, -⟩ := hplain
    obtain ⟨scope, hbound, hsame, hplain⟩ := rebound hk hb hu (segments_bound hb hbelow hsegments)
      (plain_of_wrapped hwrapped)
    refine ⟨scope, hbound, ?_, plain_bare bare_names.2.1.1 bare_names.2.1.2 hsimple hnd (wrapped_plain hplain), trivial⟩
    have hwrap : elementsIn (messageScope kind kindUri pre raw) (wrapped path below) =
        elementsIn scope (wrapped path below) := by
      cases below with
      | nil => rfl
      | cons w rest =>
        show elementsIn _ [.mk "segmentChildren" [("parent", path)] (w :: rest)] =
          elementsIn _ [.mk "segmentChildren" [("parent", path)] (w :: rest)]
        simp only [elementsIn, elementIn_bare hb bare_names.1.2, elementIn_bare hbound bare_names.1.2]
        simp only [elementsIn] at hsame
        rw [hsame]
    simp only [elementsIn, elementIn_bare hb bare_names.2.1.2, elementIn_bare hbound bare_names.2.1.2, hwrap]

/-- Where a document is read, the names of its segments come back. -/
theorem readable_of_readDocument (hb : Bound scope pre ns) {d : Document} (hm : d.schema.Resolved) (hd : d.Sound)
    (hnames : Tree.AllUnmistaken d.schema.ns d.schema.root d.tree.children) {root : Written}
    (h : encodeRoot pre docPath d.tree = .ok root) (hplain : AllPlain scope [root]) {head : Head} {creation : Stamp}
    {d' : Document} (hread : readDocument d.schema ns creation (.mk head (elementsIn scope [root])) = .ok d') :
    ∀ s ∈ Tree.preorderAll d.tree.children, s.Readable := by
  obtain ⟨hfits, htype, -, -⟩ := hd.tree_fits
  cases htree : d.tree with
  | node own children =>
    rw [htree] at h hfits htype hnames
    obtain ⟨path, below, start, hbelow, rfl, hstart, hsegments⟩ := readDocument_root_ok hb h hread
    obtain ⟨⟨-, -, -, -, hwrapped⟩, -⟩ := hplain
    obtain ⟨hown, -, -, hall⟩ := hfits
    obtain htype : own.type = d.schema.root := htype
    rw [htype] at hown hall
    exact readable_of_readSegments hb hm children hstart hown hall hnames hbelow (plain_of_wrapped hwrapped) hsegments

/-- The message type that is found for a written document is its own. -/
theorem topMessageType_own (hr : Registry.compile schema = .ok r) {m : MessageType} (hm : m ∈ r.messageTypes)
    (hkey : (∀ p ∈ m.key.parts, Name.Markless p) ∨ ∀ m', r.messageTypeById m.key.id ≠ .ok m') (hbase : o'.base = o.base)
    {name : String} {attrs : Attributes} {found : MessageType × String}
    (h : topMessageType r o' (topHead o m.key name attrs) = .ok found) : found = (m, o.messageNamespace m.key) := by
  have hparts : ∀ p ∈ m.key.parts, Name.Markless p := by
    rw [topMessageType_topHead hbase] at h
    obtain ⟨m', hm', -⟩ := Outcome.map_eq_ok.mp h
    exact hkey.resolve_right fun hnone => hnone m' (Outcome.mapError_eq_ok.mp hm')
  have hidentified : m.key.repository ≠ "" ∧ m.key.basicType ≠ "" := by
    rw [topMessageType_topHead hbase, Registry.messageTypeById] at h
    split at h
    · rename_i key hkey
      exact TypeKey.identified_of_ofId? hkey
    · cases h
  rw [topMessageType_found hr hm hidentified hparts hbase] at h
  exact (Except.ok.inj h).symm

theorem documentOfText_unaltered (hr : Registry.compile schema = .ok r) {d : Document} (hm : d.schema ∈ r.messageTypes)
    (hd : d.Sound) (hc : d.Carriable r) (hbase : o'.base = o.base) {creation : Stamp} {text : String} {d' : Document}
    (hwritten : documentText o d = .ok text) (hread : documentOfText r o' creation text = .ok d') : d.Returned d' := by
  have hres := Registry.resolved hr hm
  have hnone : Advice [] := fun a ha => by cases ha
  have hmessage : 'd' ∈ (o.messageNamespace d.key).toList ∨ 'f' ∈ (o.messageNamespace d.key).toList :=
    .inl (mem_messageNamespace o d.key)
  have hpre := messagePrefix_named d.key.basicType
  obtain ⟨w, hw, rfl⟩ := Outcome.map_eq_ok.mp hwritten
  obtain ⟨root, hroot, rfl⟩ := encodeDocumentAs_ok hw
  obtain ⟨e, htext, hdecode⟩ := Outcome.bind_eq_ok.mp hread
  obtain ⟨hcheck, m, ns, htop, hdocument⟩ := decodeDocument_ok hdecode
  rw [idocNamespace_congr hbase] at hcheck
  -- what is read is the element that was written
  have hheader : ∀ a ∈ headerAttributes d, Undeclaring a.1 := fun a ha =>
    undeclaring_of_simple (simple_headerAttributes hnone d a ha)
  have hnamed : OneUnnamed (headerAttributes d) := oneUnnamed_of_named fun a ha he =>
    (simple_headerAttributes hnone d a ha).1.nonempty (String.toList_eq_nil_iff.mpr he)
  have hname : Options.idocPrefix ++ ":Document" = Options.idocPrefix ++ ":" ++ "Document" := by decide
  rw [hname] at htext
  obtain ⟨raw, hb, rfl, hplain⟩ := elementOfText_accepted kind_named.1.1 kind_named.1.2.1 (by decide)
    (.inl (mem_idocNamespace o)) hmessage (messagePrefix_untaken _).1 top_names.1 hheader hnamed
    (encodeRoot_spelled hpre.1 hres hd hc.segments hroot) htext (readDocument_prefixless hdocument) hcheck
  -- its message type is that of the document, so it is read as the document that was written
  obtain ⟨rfl, rfl⟩ := Prod.mk.inj (topMessageType_own hr hm hc.key hbase htop)
  obtain ⟨scope, hbound, hsame, hplain⟩ := root_rebound kind_named.1.1 hb (ne_empty_of_mem hmessage) hroot hplain
    hdocument
  rw [hsame] at hdocument
  have hreadable := readable_of_readDocument hbound hres hd hc.segments hroot hplain hdocument
  obtain ⟨d'', hread', hreturned⟩ := readDocument_encoded hbound hres hd hreadable hroot hplain hnone
    (h := topHead o d.key "Document" (headerAttributes d)) rfl creation
  obtain rfl := Except.ok.inj (hdocument.symm.trans hread')
  exact hreturned

/-! ## Parameter sets -/

variable {x x' : Record}

theorem decodeRecord_ok {e : Element} (h : decodeRecord r o e = .ok x') :
    checkTop e.head o.rfcNamespace [Function.requestName, Function.responseName] = .ok () ∧
      ∃ f ns, topFunction r o e.head = .ok (f, ns) ∧
        readRecord ns (if e.head.name == Function.requestName then .request f else .response f) e = .ok x' := by
  unfold decodeRecord at h
  split at h
  · cases h
  rename_i hcheck
  split at h
  · cases h
  rename_i f ns htop
  exact ⟨hcheck, f, ns, htop, h⟩

/-- The function that is found for a written parameter set is its own. -/
theorem topFunction_own (hr : Registry.compile schema = .ok r) {f : Function} (hf : f ∈ r.functions)
    (hown : Name.Markless f.name ∨ ∀ f', r.function (Name.unescape (Name.escape f.name)) ≠ .ok f')
    (hbase : o'.base = o.base) {name : String} {attrs : Attributes} {found : Function × String}
    (h : topFunction r o' (recordHead o f.name name attrs) = .ok found) : found = (f, o.functionNamespace f.name) := by
  have hnamed : f.name ≠ "" := by
    intro he
    have hnone : o.functionName? (o.functionNamespace "") = none := by
      have hempty : (Name.escape "").isEmpty = true := by decide
      simp only [Options.functionName?, Options.functionNamespace, below?_below, Option.bind_some, hempty, Bool.true_or,
        if_true]
    rw [he, topFunction_recordHead hbase, hnone] at h
    cases h
  have hmarkless : Name.Markless f.name := by
    rw [topFunction_recordHead hbase, functionName?_functionNamespace o hnamed] at h
    obtain ⟨f', hf', -⟩ := Outcome.map_eq_ok.mp h
    exact hown.resolve_right fun hnone => hnone f' (Outcome.mapError_eq_ok.mp hf')
  rw [topFunction_found hr hf hnamed hmarkless hbase] at h
  exact (Except.ok.inj h).symm

theorem recordOfText_unaltered (hr : Registry.compile schema = .ok r) (hf : x.function ∈ r.functions)
    (hshape : x.shape = x.function.request ∨ x.shape = x.function.response) (hsound : x.Sound) (hc : x.Carriable r)
    (hbase : o'.base = o.base) {text : String} (hwritten : recordText o x = .ok text)
    (hread : recordOfText r o' text = .ok x') : x.Recovered x' := by
  have hres := (Registry.compile_functions hr).1 _ hf
  obtain ⟨-, hname, -⟩ := start_eq hres hshape
  have hdistinct : x.shape.Distinct := by
    rcases hshape with hs | hs
    · exact hs ▸ hres.request
    · exact hs ▸ hres.response
  have hnone : Advice [] := fun a ha => by cases ha
  obtain ⟨w, hw, rfl⟩ := Outcome.map_eq_ok.mp hwritten
  obtain ⟨e, htext, hdecode⟩ := Outcome.bind_eq_ok.mp hread
  obtain ⟨hcheck, g, ns, htop, hrecord⟩ := decodeRecord_ok hdecode
  rw [rfcNamespace_congr hbase] at hcheck
  cases x with
  | mk f shape slots =>
    have hmessage : 'd' ∈ (o.functionNamespace f.name).toList ∨ 'f' ∈ (o.functionNamespace f.name).toList :=
      .inr (mem_functionNamespace o f.name)
    have hpre := messagePrefix_named f.name
    obtain ⟨ws, hws, henc, rfl⟩ := encodeRecordAs_ok hw
    have hown : (Record.mk f shape slots).Unmistaken := hc.records _ List.mem_cons_self
    have hbelow : ∀ y ∈ Record.preorderSlots slots, y.Unmistaken := fun y hy => hc.records y (List.mem_cons_of_mem _ hy)
    -- what is read is the element that was written
    have hattrs : ∀ a ∈ (Record.mk f shape slots).entries.map attributeOf, Undeclaring a.1 :=
      undeclaring_attributes hnone fun e he => (hown.fields e he).1
    have hnamed : OneUnnamed ((Record.mk f shape slots).entries.map attributeOf) :=
      oneUnnamed_attributes hnone ((Record.entries_sublist _).nodup hdistinct.members)
    have hspelled : AllSpelled ws := encodeSlots_spelled hpre.1 slots hsound (fun m hm t ht => hdistinct.below hm ht)
      (fun m hm => (hown.members m hm).unbroken) hbelow hws
    obtain ⟨raw, hb, rfl, hplain⟩ := elementOfText_accepted kind_named.2.1 kind_named.2.2.1 (by decide)
      (.inr (mem_rfcNamespace o)) hmessage (messagePrefix_untaken _).2 hname hattrs hnamed hspelled htext
      (readRecord_prefixless hrecord) hcheck
    -- its function is that of the record, so it is read as the record that was written
    obtain ⟨rfl, rfl⟩ := Prod.mk.inj (topFunction_own hr hf hc.function hbase htop)
    have hown' := (decodeRecord_found (r := .mk g shape slots) hres hshape hbase htop _).symm.trans hdecode
    obtain ⟨start, -, hmembers⟩ := readRecord_ok hown'
    obtain ⟨scope, hbound, hsame, hplain⟩ := rebound kind_named.2.1 hb (ne_empty_of_mem hmessage)
      (members_bound hb hws hmembers) hplain
    rw [hsame] at hown'
    have hattributes : (recordHead o g.name (Record.mk g shape slots).name
        ((Record.mk g shape slots).entries.map attributeOf)).attributes =
        readAs ([] ++ (Record.mk g shape slots).entries.map attributeOf) := rfl
    have hreadable := readable_of_readRecord (Record.blank_isOf g shape) hsound hc.records hc.top hattributes hown'
      fun start hstart hmembers => readable_of_readMembers hbound slots hdistinct (fun m hm => hm) hstart hsound
        hown.members hbelow hws hplain hmembers
    have hself := hreadable _ List.mem_cons_self
    have hlegible : ∀ e ∈ (Record.mk g shape slots).entries, Legible e.1.name := fun e he =>
      ⟨hself.members _ (Record.entry_present he), hc.top e he, hself.fields e he⟩
    obtain ⟨x'', hread', hrecovered⟩ := readRecord_written hsound hdistinct henc hlegible hnone hattributes
      fun cells hcells => readMembers_written hbound slots [] [] hdistinct rfl rfl hsound hcells hself.members
        (fun y hy => hreadable y (List.mem_cons_of_mem _ hy)) hws hplain
    obtain rfl := Except.ok.inj (hown'.symm.trans hread')
    exact hrecovered

/-! ## All messages -/

/-- Nothing is altered without an error. Whatever comes about under a compiled registry, of whatever names, none of which
is mistaken: where it can be written, and what was written can be read with the same registry and base, what is read is
the same but for what becomes of values on the wire. -/
theorem messages_unaltered (hr : Registry.compile schema = .ok r) (hbase : o'.base = o.base) (creation : Stamp)
    (text : String) :
    (∀ d d', Document.Reach r d → d.Carriable r → documentText o d = .ok text →
      documentOfText r o' creation text = .ok d' → d.Returned d') ∧
    ∀ x x', Record.Arises r x → x.Carriable r → recordText o x = .ok text → recordOfText r o' text = .ok x' →
      x.Recovered x' := by
  constructor
  · intro d d' hd hc hwritten hread
    obtain ⟨hm, hsound⟩ := hd.sound hr
    exact documentOfText_unaltered hr hm hsound hc hbase hwritten hread
  · intro x x' hx hc hwritten hread
    obtain ⟨hf, hshape, hsound⟩ := hx.sound
    exact recordOfText_unaltered hr hf hshape hsound hc hbase hwritten hread

/-- Files, with a name that XML cannot have, and with names that are mistaken in it. -/
def filing : Definition :=
  { structures :=
      [{ name := "COVER", members := [.field { name := "--><FILE:SEAL", type := .char, length := 8 }] }, { name := "SEAL" }]
    functions :=
      [{ name := "FILE"
         imports := (["4TH", "document", "A/B", "A_-B", "xmlns:KIND", "PAGE", " PAGE", "PAGE=\x22\x22document",
             "><!--"].map fun name => .field { name := name, type := .char, length := 8 }) ++
           [.nested "COVER" "" "COVER", .nested "SEAL=\x22x\x22" "" "SEAL"] },
       { name := "A_-B" }, { name := "A/B" }] }

def filings : Registry := (Registry.compile filing).toOption.get rfl

theorem filings_compiled : Registry.compile filing = .ok filings := rfl

def filingFunction (name : String) : Function := (filings.function name).toOption.getD default

/-- A request to file something under a name. -/
def filed (name : String) : Record := (Record.request (filingFunction "FILE")).editBelow [] (.setWire name "x")

theorem filed_arises (name : String) : Record.Arises filings (filed name) :=
  .edit _ _ _ (.made _ (.request _ List.mem_cons_self))

/-- The least that is written around a message. -/
def terse : Options := { base := "f", indent := 0, declaration := false }

/-- An order comes back, and so does what is filed under a name that XML cannot have. -/
theorem messages_unaltered_filing : ∃ text text' : String,
    documentText {} Document.twoItems = .ok text ∧ recordText terse (filed "4TH") = .ok text' ∧
      (∃ d', documentOfText Document.orders {} Document.twoItems.creation text = .ok d' ∧ Document.twoItems.Returned d') ∧
      ∃ x', recordOfText filings terse text' = .ok x' ∧ (filed "4TH").Recovered x' := by
  obtain ⟨text, hwritten⟩ := Outcome.exists_ok (x := documentText {} Document.twoItems) (by decide +kernel)
  obtain ⟨text', x', hwritten', hread', -⟩ := Outcome.exists_ok_ok (x := recordText terse (filed "4TH"))
    (f := recordOfText filings terse) (p := fun _ => true) (by decide +kernel)
  have hsound := (Document.twoItems_reach.sound Document.orders_compiled).2
  have hsafe : Document.twoItems.schema.XmlSafe := by decide +kernel
  have hbase : ReferenceFree ({} : Options).base := by decide +kernel
  obtain ⟨d', hread, -⟩ : ∃ d', documentOfText Document.orders {} Document.twoItems.creation text = .ok d' ∧
      Document.twoItems.Returned d' :=
    documentOfText_documentText Document.orders_compiled List.mem_cons_self hsound hsafe hbase rfl _ hwritten
  have hdocument : Document.twoItems.Carriable Document.orders := by decide +kernel
  have hrecord : (filed "4TH").Carriable filings := by decide +kernel
  refine ⟨text, text', hwritten, hwritten', ⟨d', hread, ?_⟩, x', hread', ?_⟩
  · exact (messages_unaltered Document.orders_compiled rfl Document.twoItems.creation text).1 _ _ Document.twoItems_reach
      hdocument hwritten hread
  · exact (messages_unaltered filings_compiled rfl Document.twoItems.creation text').2 _ _ (filed_arises _) hrecord
      hwritten' hread'

/-- A parameter set that comes back as another one. -/
def Altered (reg : Registry) (x : Record) : Prop :=
  Record.Arises reg x ∧ ∃ text y, recordText terse x = .ok text ∧ recordOfText reg terse text = .ok y ∧ ¬ x.Recovered y

/-- The function of a parameter set and the fields that are set in it, by their names. -/
def outline (x : Record) : List String := x.function.name :: x.entries.map (·.1.name)

theorem altered_of_outline {reg : Registry} {x : Record} (hx : Record.Arises reg x)
    (h : ((recordText terse x).toOption.bind fun text => (recordOfText reg terse text).toOption).any
      (fun y => outline y != outline x) = true) : Altered reg x := by
  obtain ⟨text, y, hwritten, hread, hne⟩ := Outcome.exists_ok_ok h
  refine ⟨hx, text, y, hwritten, hread, fun hrecovered => ?_⟩
  have hfields : y.entries.map (·.1.name) = x.entries.map (·.1.name) := by
    have := congrArg (List.map FieldDecl.name) hrecovered.fields
    rwa [List.map_map, List.map_map] at this
  have hsame : outline y = outline x := by
    rw [outline, outline, hrecovered.function, hfields]
  simp [hsame] at hne

/-- A request with a name that ends its tag, and behind it one in its cover that ends a comment. -/
def covered : Record := (filed "><!--").editBelow [.nested "COVER"] (.setWire "--><FILE:SEAL" "x")

/-- What is filed under names that are mistaken does not come back: as advice where none is given, as the declaration of a
prefix, as a name with `/` for `_-`, as a name without white space around it, as two attributes, or as a comment and
another element. And a function with `_-` in its name comes back as another. -/
theorem altered_filings :
    Altered filings (filed "document") ∧ Altered filings (filed "xmlns:KIND") ∧ Altered filings (filed "A_-B") ∧
      Altered filings (filed " PAGE") ∧ Altered filings (filed "PAGE=\x22\x22document") ∧ Altered filings covered ∧
      Altered filings (.request (filingFunction "A_-B")) := by
  refine ⟨?_, ?_, ?_, ?_, ?_, ?_, ?_⟩
  · exact altered_of_outline (filed_arises _) (by decide +kernel)
  · exact altered_of_outline (filed_arises _) (by decide +kernel)
  · exact altered_of_outline (filed_arises _) (by decide +kernel)
  · exact altered_of_outline (filed_arises _) (by decide +kernel)
  · exact altered_of_outline (filed_arises _) (by decide +kernel)
  · exact altered_of_outline (.edit _ _ _ (filed_arises _)) (by decide +kernel)
  · exact altered_of_outline (.made _ (.request _ (by decide +kernel))) (by decide +kernel)

end Xml

end DocWire
