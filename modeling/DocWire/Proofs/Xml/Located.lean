/-
  DocWire.Proofs.Xml.Located — the paths that are written identify the segments.

  Every element states the path of what encloses it, so that the tree can be followed without a schema. The writer
  numbers siblings on its way, by those of their type that it has passed; told from the document, that is the place of a
  segment among the children of its type (`Sound.idxOf_childrenNamed`). So the elements that enclose each other are those
  of the segments, each in its place, and they state the paths of the segments that enclose them
  (`encodeRoot_located`).

  - `paths_identify`: of what can be written, every element and every wrapper states the path of the segment that
    encloses it, no two segments of a text have one path, and a path by itself tells the one above, the type and the
    number; so documents of the same paths have the same tree, but for how siblings of different types are mixed.
-/

import DocWire.Proofs.Document.Violations
import DocWire.Proofs.Xml.Document

namespace DocWire

namespace Markup.Written

def name : Written → String
  | .mk name _ _ => name

def attribute? : Written → String → Option String
  | .mk _ attributes _, name => attributes.lookup name

def children : Written → List Written
  | .mk _ _ children => children

mutual

/-- An element and those that it encloses, the wrappers between them left out. -/
def enclosed : Written → Tree Written
  | .mk name attributes wrappers => .node (.mk name attributes wrappers) (enclosedIn wrappers)

/-- What stands in some wrappers. -/
def enclosedIn : List Written → List (Tree Written)
  | [] => []
  | .mk _ _ children :: rest => enclosedAll children ++ enclosedIn rest

def enclosedAll : List Written → List (Tree Written)
  | [] => []
  | e :: rest => enclosed e :: enclosedAll rest

end

end Markup.Written

namespace Xml

open Markup (Written)
open Document (count_types subtree_succ treeBelow typeOf typeOf_subtree)

variable {d : Document} {pre docPath : String}

theorem enclosedIn_wrapped (path : String) (below : List Written) :
    Written.enclosedIn (wrapped path below) = Written.enclosedAll below := by
  cases below with
  | nil => rfl
  | cons e rest =>
    show Written.enclosedAll (e :: rest) ++ [] = _
    rw [List.append_nil]

/-- The path of what a segment stands in: the document for the root, and the segment above for every other. -/
inductive Encloses (d : Document) (docPath : String) : Nat → String → Prop
  | document : Encloses d docPath Document.rootId docPath
  | segment {i p : Nat} {s : Segment} {above : String} : d.segment? i = some s → s.parent = some p →
      PathOf d docPath p above → Encloses d docPath i above

/-- The element of a segment: it states the path of what the segment stands in, and what it wraps its children in states
the path of the segment. -/
structure ElementOf (d : Document) (docPath : String) (e : Written) (i : Nat) : Prop where
  own : ∃ above, e.attribute? "parent" = some above ∧ Encloses d docPath i above
  wrappers : ∀ w ∈ e.children, w.name = "segmentChildren" ∧ ∃ path, w.attribute? "parent" = some path ∧ PathOf d docPath i path

theorem elementOf_written {name path above : String} {attributes : Attributes} {below : List Written} {i : Nat}
    (habove : Encloses d docPath i above) (hpath : PathOf d docPath i path) :
    ElementOf d docPath (.mk name ([("parent", above), ("document", docPath)] ++ attributes) (wrapped path below)) i := by
  refine ⟨⟨above, rfl, habove⟩, fun w hw => ?_⟩
  have hw : w ∈ wrapped path below := hw
  unfold wrapped at hw
  split at hw
  · cases hw
  · obtain rfl := List.mem_singleton.mp hw
    exact ⟨rfl, path, rfl, hpath⟩

/-- The induction is on the room for the tree, and below it on the children that are still to be written; `ahead` are
those before them. -/
theorem encodeSegments_located (h : d.Sound) : ∀ (room i : Nat) {s : Segment} {path : String}, d.segment? i = some s →
    d.segmentCount ≤ i + (room + 1) → PathOf d docPath i path → ∀ (behind ahead : List Nat) {ws : List Written},
    s.children = ahead ++ behind →
    encodeSegments pre docPath path (ahead.map fun c => typeOf (d.subtree room c)).reverse (behind.map (d.subtree room)) =
      .ok ws →
    Tree.AllMatch (ElementOf d docPath) (Written.enclosedAll ws) (behind.map (d.treeBelow room)) := by
  intro room
  induction room with
  | zero =>
    intro i s path hs hroom hpath behind ahead ws hsplit hok
    cases behind with
    | nil =>
      cases hok
      trivial
    | cons c rest =>
      have hc : c ∈ s.children := by
        rw [hsplit]
        exact List.mem_append_right _ List.mem_cons_self
      have := h.lt_child hs hc
      have := h.child_lt hs hc
      omega
  | succ room ih =>
    intro i s path hs hroom hpath behind
    induction behind with
    | nil =>
      intro ahead ws _ hok
      cases hok
      trivial
    | cons c rest ihRest =>
      intro ahead ws hsplit hok
      have hc : c ∈ s.children := by
        rw [hsplit]
        exact List.mem_append_right _ List.mem_cons_self
      obtain ⟨t, ht, hparent⟩ := h.listed i s hs c hc
      have hlt := h.lt_child hs hc
      have hahead : ∀ x ∈ ahead, ∃ u, d.segment? x = some u := by
        intro x hx
        have hx : x ∈ s.children := by
          rw [hsplit]
          exact List.mem_append_left _ hx
        exact (h.listed i s hs x hx).imp fun u hu => hu.1
      rw [List.map_cons] at hok
      obtain ⟨e, es, he, hes, rfl⟩ := encodeSegments_cons hok
      -- the child has as many of its type before it as the writer has counted
      have hrank : (ahead.map fun c => typeOf (d.subtree (room + 1) c)).reverse.count t.type.name =
          (d.childrenNamed s t.type.name).idxOf c := by
        rw [List.count_reverse, count_types (room + 1) _ hahead, h.idxOf_childrenNamed hs ht hsplit]
      have hown := PathOf.child hpath hs hc ht
      have htype : (d.subtree (room + 1) c).value.type.name = t.type.name := typeOf_subtree ht (room + 1)
      rw [htype, hrank, subtree_succ ht] at he
      obtain ⟨below, hbelow, -, rfl⟩ := encodeSegment_ok he
      have hbelowLocated := ih c ht (by omega) hown t.children [] rfl hbelow
      rw [List.map_cons, treeBelow, Document.childrenOf_eq ht]
      refine ⟨⟨elementOf_written (.segment ht hparent hpath) hown, ?_⟩, ?_⟩
      · rw [enclosedIn_wrapped]
        exact hbelowLocated
      · refine ihRest (ahead ++ [c]) (by rw [hsplit, List.append_assoc]; rfl) ?_
        rw [htype] at hes
        rw [List.map_append, List.reverse_append, List.map_singleton, typeOf_subtree ht]
        exact hes

theorem encodeRoot_located (h : d.Sound) {root : Written} (hok : encodeRoot pre docPath d.tree = .ok root) :
    root.enclosed.Matches (ElementOf d docPath) d.idTree := by
  obtain ⟨r, hr, -⟩ := h.root
  obtain ⟨room, hroom⟩ : ∃ n, d.segmentCount = n + 1 := ⟨d.segmentCount - 1, by have := h.root_lt; omega⟩
  rw [Document.tree_eq, hroom, subtree_succ hr] at hok
  obtain ⟨below, hbelow, rfl⟩ := encodeRoot_ok hok
  rw [Document.idTree, hroom, treeBelow, Document.childrenOf_eq hr]
  refine ⟨elementOf_written .document .root, ?_⟩
  rw [enclosedIn_wrapped]
  exact encodeSegments_located h room Document.rootId hr (by omega) .root r.children [] rfl hbelow

theorem plainTypes_of_sound (hm : d.schema.Resolved) (h : d.Sound) (hplain : ∀ t ∈ d.schema.segments, Name.Markless t.name) :
    PlainTypes d := by
  intro i s hs
  rcases List.mem_cons.mp (h.types i s hs) with hroot | htype
  · rw [hroot, hm.rootName]
    decide
  · exact hplain s.type htype

/-- Segments of one path, of two documents, are of one type. -/
theorem type_eq_of_path {d' : Document} (hm : d.schema.Resolved) (hm' : d'.schema.Resolved) (h : d.Sound) (h' : d'.Sound)
    (hnames : PlainTypes d) (hnames' : PlainTypes d') {i j : Nat} {path : String} (hi : PathOf d docPath i path)
    (hj : PathOf d' docPath j path) {s t : Segment} (hs : d.segment? i = some s) (ht : d'.segment? j = some t) :
    s.type.name = t.type.name := by
  cases hi with
  | root =>
    obtain rfl := (hj.of_root hnames').1
    obtain ⟨r, hr, hroot, -⟩ := h.root
    obtain ⟨r', hr', hroot', -⟩ := h'.root
    rw [hs, Option.some_inj] at hr
    rw [ht, Option.some_inj] at hr'
    rw [hr, hr', hroot, hroot', hm.rootName, hm'.rootName]
  | child hp hparent hc hu =>
    obtain ⟨-, -, v, -, -, -, hv, htype, -⟩ := hj.of_segment hnames' (hnames _ _ hu)
    rw [hs, Option.some_inj] at hu
    rw [ht, Option.some_inj] at hv
    rw [hu, hv, htype]

/-- The root element of a document, and the paths in the document. -/
structure Located (d : Document) (docPath : String) (root : Written) : Prop where
  /-- The elements that enclose each other are those of the segments, each in its place. -/
  elements : root.enclosed.Matches (ElementOf d docPath) d.idTree
  given : ∀ i, i < d.segmentCount → ∃! path, PathOf d docPath i path
  distinct : ∀ i j path, PathOf d docPath i path → PathOf d docPath j path → i = j
  /-- A path by itself tells the path of the segment above, the type, and the number among the siblings of the type. -/
  told : ∀ i path, PathOf d docPath i path →
    (i = Document.rootId ∧ path = childPath docPath "rootSegment" ∧ readPath? path = none) ∨
    ∃ p above parent s, PathOf d docPath p above ∧ d.segment? p = some parent ∧ i ∈ parent.children ∧
      d.segment? i = some s ∧ readPath? path = some (above, s.type.name, (d.childrenNamed parent s.type.name).idxOf i)
  /-- The children of a segment that are of one type have the numbers from 0 on, in their order. -/
  numbered : ∀ p parent above name, d.segment? p = some parent → PathOf d docPath p above →
    List.Forall₂ (PathOf d docPath) (d.childrenNamed parent name)
      ((List.range (d.childrenNamed parent name).length).map (segmentPath above name))

theorem located (hm : d.schema.Resolved) (h : d.Sound) (hplain : ∀ t ∈ d.schema.segments, Name.Markless t.name)
    {root : Written} (hok : encodeRoot pre docPath d.tree = .ok root) : Located d docPath root where
  elements := encodeRoot_located h hok
  given i hi := by
    obtain ⟨path, hpath⟩ := exists_path h i i (Nat.le_refl i) hi
    exact ⟨path, hpath, fun other hother => (hpath.unique h hother).symm⟩
  distinct i j path hi hj := hi.eq_segment (plainTypes_of_sound hm h hplain) hj
  told i path hi := hi.read (plainTypes_of_sound hm h hplain)
  numbered p parent above name hparent hp := paths_childrenNamed h hp hparent name

/-! ## Lists of documents -/

/-- The path of a document in a list. -/
def listedPath (k : Nat) : String := childPath "/" ("document." ++ toString k)

theorem listedPath_inj {k l : Nat} (h : listedPath k = listedPath l) : k = l := by
  have hchars := congrArg String.toList h
  rw [listedPath, listedPath, childPath_eq, childPath_eq] at hchars
  simp only [String.toList_append, List.append_cancel_left_eq, toList_toString] at hchars
  rw [← Number.digitsValue_digits k, hchars, Number.digitsValue_digits]

theorem encodeListed_roots : ∀ {ds : List Document} {i : Nat} {ws : List Written}, encodeListed i ds = .ok ws →
    ws.length = ds.length ∧ ∀ (k : Nat) d, ds[k]? = some d → ∃ attributes root,
      ws[k]? = some (.mk "document" attributes [root]) ∧
        encodeRoot (messagePrefix d.key.basicType) (listedPath (i + k)) d.tree = .ok root
  | [], i, ws, h => by
    cases h
    exact ⟨rfl, fun k d hd => by cases hd⟩
  | d :: rest, i, ws, h => by
    obtain ⟨w, es, hw, hes, rfl⟩ := encodeListed_cons h
    obtain ⟨root, hroot, rfl⟩ := encodeDocumentAs_ok hw
    obtain ⟨hlength, hrest⟩ := encodeListed_roots hes
    refine ⟨by rw [List.length_cons, List.length_cons, hlength], fun k d' hd' => ?_⟩
    cases k with
    | zero =>
      cases hd'
      exact ⟨_, root, rfl, hroot⟩
    | succ k =>
      obtain ⟨attributes, root', hw', hroot'⟩ := hrest k d' hd'
      rw [Nat.add_right_comm] at hroot'
      exact ⟨attributes, root', hw', hroot'⟩

variable {schema : Definition} {r : Registry} {m : MessageType} {o : Options}

/-- The paths that are written identify the segments. Of documents and lists that come about under a compiled registry,
of a message type whose segment types hold no `_-`: where one is written, every segment of every document is located,
and no two segments of the text have one path, in whichever documents of a list they are. -/
theorem paths_identify (hr : Registry.compile schema = .ok r) (hplain : ∀ t ∈ m.segments, Name.Markless t.name) :
    (∀ d w, Document.Reach r d → d.schema = m → encodeDocument o d = .ok w →
      ∃ name attributes root, w = .mk name attributes [root] ∧ Located d "/" root) ∧
    (∀ b w, Batch.Reach r b → b.schema = m → encodeBatch o b = .ok w → ∃ name attributes ws, w = .mk name attributes ws ∧
      ws.length = b.documents.length ∧
      (∀ (k : Nat) d, b.documents[k]? = some d → ∃ attributes root, ws[k]? = some (.mk "document" attributes [root]) ∧
        Located d (listedPath k) root) ∧
      ∀ (k l : Nat) d e i j path, b.documents[k]? = some d → b.documents[l]? = some e →
        PathOf d (listedPath k) i path → PathOf e (listedPath l) j path → k = l ∧ i = j) ∧
    ∀ d d' docPath, Document.Reach r d → d.schema = m → Document.Reach r d' → d'.schema = m →
      (∀ path, (∃ i, PathOf d docPath i path) ↔ ∃ j, PathOf d' docPath j path) → ∀ i j path s t,
      PathOf d docPath i path → PathOf d' docPath j path → d.segment? i = some s → d'.segment? j = some t →
      s.type.name = t.type.name ∧ ∀ name, List.Forall₂
        (fun c c' => ∃ below, PathOf d docPath c below ∧ PathOf d' docPath c' below)
        (d.childrenNamed s name) (d'.childrenNamed t name) := by
  refine ⟨?_, ?_, ?_⟩
  · intro d w hd hs hok
    obtain ⟨hm, hsound⟩ := hd.sound hr
    obtain ⟨root, hroot, rfl⟩ := encodeDocumentAs_ok hok
    exact ⟨_, _, root, rfl, located (Registry.resolved hr hm) hsound (hs ▸ hplain) hroot⟩
  · intro b w hb hs hok
    obtain ⟨hm, hall⟩ := hb.documents hr
    obtain ⟨ws, hws, rfl⟩ := Outcome.map_eq_ok.mp hok
    have hresolved := Registry.resolved hr hm
    have hmember : ∀ {k : Nat} {d}, b.documents[k]? = some d → d.schema = b.schema ∧ d.Sound := fun hd =>
      hall _ (List.mem_of_getElem? hd)
    obtain ⟨hlength, hroots⟩ := encodeListed_roots hws
    refine ⟨_, _, ws, rfl, hlength, fun k d hd => ?_, fun k l d e i j path hd he hi hj => ?_⟩
    · obtain ⟨hschema, hsound⟩ := hmember hd
      obtain ⟨attributes, root, hw, hroot⟩ := hroots k d hd
      rw [Nat.zero_add] at hroot
      exact ⟨attributes, root, hw, located (hschema ▸ hresolved) hsound (hschema ▸ hs ▸ hplain) hroot⟩
    · obtain ⟨hschema, hsound⟩ := hmember hd
      obtain ⟨hschema', hsound'⟩ := hmember he
      have hnames := plainTypes_of_sound (hschema ▸ hresolved) hsound (hschema ▸ hs ▸ hplain)
      have hnames' := plainTypes_of_sound (hschema' ▸ hresolved) hsound' (hschema' ▸ hs ▸ hplain)
      obtain rfl := listedPath_inj (hi.eq_document hnames hnames' hj)
      rw [hd, Option.some_inj] at he
      subst he
      exact ⟨rfl, hi.eq_segment hnames hj⟩
  · intro d d' docPath hd hs hd' hs' hpaths i j path s t hi hj hsegment hsegment'
    obtain ⟨hm, hsound⟩ := hd.sound hr
    obtain ⟨hm', hsound'⟩ := hd'.sound hr
    have hresolved := Registry.resolved hr hm
    have hresolved' := Registry.resolved hr hm'
    have hnames := plainTypes_of_sound hresolved hsound (hs ▸ hplain)
    have hnames' := plainTypes_of_sound hresolved' hsound' (hs' ▸ hplain)
    exact ⟨type_eq_of_path hresolved hresolved' hsound hsound' hnames hnames' hi hj hsegment hsegment',
      children_correspond hsound hsound' hnames hnames' hpaths hi hsegment hj hsegment'⟩

/-- The second item of an order, alone and in a list. -/
theorem paths_identify_orders :
    let item := "//@rootSegment/@segmentChildren/@HEAD.0/@segmentChildren/@ITEM.1"
    (∃ name attributes root, encodeDocument {} Document.twoItems = .ok (.mk name attributes [root]) ∧
      Located Document.twoItems "/" root ∧ PathOf Document.twoItems "/" 3 item ∧
      readPath? item = some ("//@rootSegment/@segmentChildren/@HEAD.0", "ITEM", 1)) ∧
    ∃ name attributes ws, encodeBatch {} twoOrders = .ok (.mk name attributes ws) ∧ ws.length = 2 ∧
      ∀ (d : Document) i j path, twoOrders.documents[1]? = some d → PathOf Document.twoItems (listedPath 0) i path →
        ¬ PathOf d (listedPath 1) j path := by
  intro item
  have hplain : ∀ t ∈ Document.orderSchema.segments, Name.Markless t.name := by decide +kernel
  obtain ⟨hone, hlist, -⟩ := paths_identify (o := {}) Document.orders_compiled hplain
  refine ⟨?_, ?_⟩
  · obtain ⟨w, hw⟩ := Outcome.exists_ok (x := encodeDocument {} Document.twoItems) (by decide +kernel)
    obtain ⟨name, attributes, root, rfl, hlocated⟩ := hone _ w Document.twoItems_reach rfl hw
    have hroot : Document.twoItems.segment? 0 = some (Document.twoItems.segment 0) := by decide +kernel
    have hhead : Document.twoItems.segment? 1 = some (Document.twoItems.segment 1) := by decide +kernel
    have hheads := hlocated.numbered 0 _ _ "HEAD" hroot .root
    rw [show Document.twoItems.childrenNamed (Document.twoItems.segment 0) "HEAD" = [1] by decide +kernel] at hheads
    obtain ⟨hfirst, -⟩ := List.forall₂_cons.mp hheads
    have hitems := hlocated.numbered 1 _ _ "ITEM" hhead hfirst
    rw [show Document.twoItems.childrenNamed (Document.twoItems.segment 1) "ITEM" = [2, 3] by decide +kernel] at hitems
    obtain ⟨-, hrest⟩ := List.forall₂_cons.mp hitems
    obtain ⟨hsecond, -⟩ := List.forall₂_cons.mp hrest
    have hitem : segmentPath (segmentPath (childPath "/" "rootSegment") "HEAD" 0) "ITEM" 1 = item := by decide +kernel
    exact ⟨name, attributes, root, hw, hlocated, hitem ▸ hsecond, by decide +kernel⟩
  · obtain ⟨w, hw⟩ := Outcome.exists_ok (x := encodeBatch {} twoOrders) (by decide +kernel)
    obtain ⟨name, attributes, ws, rfl, hlength, -, hdistinct⟩ := hlist _ w twoOrders_reach rfl hw
    refine ⟨name, attributes, ws, hw, hlength, fun d i j path hd hi hj => ?_⟩
    obtain ⟨hne, -⟩ := hdistinct 0 1 _ d i j path rfl hd hi hj
    cases hne

end Xml

end DocWire
