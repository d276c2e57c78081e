/-
  DocWire.Proofs.Document.Rebuild — making a document again from its tree.

  A reader makes segments one by one: it adds a child, fills its fields, makes what stands below it, and
  goes on behind it. `Ready` says that the trees still to be made have their slots and room below a segment;
  `Grown` says what there is when they are made: the trees stand below the segment, in order, and nothing
  that was there before has changed, apart from the list of its children. Both are told step by step
  (`Ready.child`, `Ready.rest`, `Grown.cons`), so a reader has only to follow its own recursion.

  The tree of a sound document fits its message type (`Sound.tree_fits`), and what stands at the root of a
  document is its tree (`Stands.tree`).
-/

import DocWire.Proofs.Document.Header
import DocWire.Proofs.Document.Sound
import DocWire.Proofs.Field.Coercion
import DocWire.Proofs.Pairing

namespace DocWire

/-! ## Trees -/

namespace Tree

variable {α β : Type}

theorem mapAll_eq_map (f : α → β) (ts : List (Tree α)) : mapAll f ts = ts.map (map f) := by
  induction ts with
  | nil => rfl
  | cons t rest ih => rw [mapAll, ih, List.map_cons]

theorem preorderAll_eq_flatMap (ts : List (Tree α)) : preorderAll ts = ts.flatMap preorder := by
  induction ts with
  | nil => rfl
  | cons t rest ih => rw [preorderAll, ih, List.flatMap_cons]

mutual

/-- Two trees of one form, whose values correspond place by place. -/
def Matches (R : α → β → Prop) : Tree α → Tree β → Prop
  | .node a as, .node b bs => R a b ∧ AllMatch R as bs

def AllMatch (R : α → β → Prop) : List (Tree α) → List (Tree β) → Prop
  | [], [] => True
  | a :: as, b :: bs => Matches R a b ∧ AllMatch R as bs
  | _, _ => False

end

/-- The names of the types at the top of trees of segments. -/
def names (ts : List (Tree Segment)) : List String := ts.map (·.value.type.name)

/-- Where a tree stands in a segment of a type and a level: in a slot of its own type, one level below. -/
def InSlot (m : MessageType) (type : SegmentType) (level : Nat) (t : Tree Segment) : Prop :=
  t.value.level = level + 1 ∧
    ∃ slot ∈ type.children, slot.segmentType = t.value.type.name ∧ m.segment? slot.key = some t.value.type

/-- No slot holds more than it may. -/
def WithinLimits (type : SegmentType) (ts : List (Tree Segment)) : Prop :=
  ∀ slot ∈ type.children, (names ts).count slot.segmentType ≤ slot.maxOccurrence

/-- Where a tree stands in a segment, its type is found under its own name. -/
theorem InSlot.childOf? {m : MessageType} {type : SegmentType} {level : Nat} {t : Tree Segment} (hm : m.Resolved)
    (ht : type ∈ m.allSegments) (h : InSlot m type level t) :
    ∃ slot ∈ type.children, slot.segmentType = t.value.type.name ∧
      m.childOf? type t.value.type.name = some (slot, t.value.type) := by
  obtain ⟨-, slot, hslot, hn, hk⟩ := h
  obtain ⟨u, hu, -, hkey, hchild⟩ := hm.childOf?_slot ht hslot
  rw [hkey, hm.segment?_key (List.mem_cons_of_mem _ hu), Option.some_inj] at hk
  subst hk
  exact ⟨slot, hslot, hn, hn ▸ hchild⟩

mutual

/-- A tree that documents of a message type may have. -/
def Fits (m : MessageType) : Tree Segment → Prop
  | .node s children =>
    s.type ∈ m.allSegments ∧ s.Filled ∧ WithinLimits s.type children ∧ AllFit m s.type s.level children

def AllFit (m : MessageType) (type : SegmentType) (level : Nat) : List (Tree Segment) → Prop
  | [] => True
  | t :: rest => InSlot m type level t ∧ Fits m t ∧ AllFit m type level rest

end

theorem allFit_iff {m : MessageType} {type : SegmentType} {level : Nat} {ts : List (Tree Segment)} :
    AllFit m type level ts ↔ ∀ t ∈ ts, InSlot m type level t ∧ Fits m t := by
  induction ts with
  | nil => simp [AllFit]
  | cons t rest ih => simp [AllFit, ih, and_assoc]

end Tree

namespace Segment

/-- A segment read back: every field that was set is recovered, and no other is set. -/
structure Recovered (s t : Segment) : Prop where
  type : t.type = s.type
  level : t.level = s.level
  fields : List.Forall₂ (fun x w => Option.Rel (Coercion.Recovered x.1.format) x.2 w) (s.type.fields.zip s.fields) t.fields

end Segment

namespace Document

variable {d d' : Document}

/-- The segment with a number. -/
def segment (d : Document) (id : Nat) : Segment := (d.segment? id).getD default

theorem segment_eq {id : Nat} {s : Segment} (h : d.segment? id = some s) : d.segment id = s := by
  rw [segment, h, Option.getD_some]

/-- The tree of the segments below one, at most `room` levels deep. -/
def subtree (d : Document) (room id : Nat) : Tree Segment := (d.treeBelow room id).map d.segment

theorem tree_eq (d : Document) : d.tree = d.subtree d.segmentCount rootId := rfl

theorem subtree_succ {id : Nat} {s : Segment} (h : d.segment? id = some s) (room : Nat) :
    d.subtree (room + 1) id = .node s (s.children.map (d.subtree room)) := by
  have hc : d.childrenOf id = s.children := by
    rw [childrenOf, h, Option.map_some, Option.getD_some]
  rw [subtree, treeBelow, Tree.map, Tree.mapAll_eq_map, segment_eq h, hc, List.map_map]
  rfl

theorem subtree_value (room id : Nat) : (d.subtree room id).value = d.segment id := by
  cases room <;> rfl

/-! ## The tree of a sound document -/

theorem Sound.subtree_fits (h : d.Sound) : ∀ (room id : Nat) {s : Segment}, d.segment? id = some s →
    d.segmentCount ≤ id + room → (d.subtree room id).Fits d.schema
  | 0, id, s, hs, hroom => by
    have := segment?_lt hs
    omega
  | room + 1, id, s, hs, hroom => by
    rw [subtree_succ hs, Tree.Fits, Tree.allFit_iff]
    have hchild : ∀ c ∈ s.children, ∃ t, d.segment? c = some t ∧ d.segment c = t ∧ id < c ∧ d.Fits s t := by
      intro c hc
      obtain ⟨t, ht, htp⟩ := h.listed id s hs c hc
      have hlt := h.lt_child hs hc
      have hne : c ≠ rootId := Nat.ne_of_gt (Nat.lt_of_le_of_lt (Nat.zero_le id) hlt)
      obtain ⟨p, parent, -, hp, hparent, -, hfits⟩ := h.above c t ht hne
      rw [htp, Option.some_inj] at hp
      rw [← hp, hs, Option.some_inj] at hparent
      exact ⟨t, ht, segment_eq ht, hlt, hparent ▸ hfits⟩
    refine ⟨h.types id s hs, h.filled id s hs, fun slot hslot => ?_, fun u hu => ?_⟩
    · have hnames : (Tree.names (s.children.map (d.subtree room))).count slot.segmentType =
          (d.childrenNamed s slot.segmentType).length := by
        rw [Tree.names, List.map_map, List.count_eq_countP, List.countP_map, List.countP_eq_length_filter, childrenNamed]
        refine congrArg List.length (List.filter_congr fun c hc => ?_)
        obtain ⟨t, ht, hseg, -⟩ := hchild c hc
        simp only [Function.comp_apply, subtree_value, hseg, typeName?, ht, Option.map_some]
        rfl
      rw [hnames]
      exact h.limits id s hs slot hslot
    · obtain ⟨c, hc, rfl⟩ := List.mem_map.mp hu
      obtain ⟨t, ht, hseg, hlt, hlevel, slot, hslot, hn, -, hk⟩ := hchild c hc
      refine ⟨?_, h.subtree_fits room c ht (by omega)⟩
      rw [Tree.InSlot, subtree_value, hseg]
      exact ⟨hlevel, slot, hslot, hn, hk⟩

/-- The tree of a sound document is one that its message type allows, with an empty root at its top. -/
theorem Sound.tree_fits (h : d.Sound) : d.tree.Fits d.schema ∧ d.tree.value.type = d.schema.root ∧
    d.tree.value.level = 0 ∧ d.tree.value.fields = [] := by
  obtain ⟨s, hs, ht, -, hl, hf⟩ := h.root
  rw [tree_eq, subtree_value, segment_eq hs]
  exact ⟨h.subtree_fits _ _ hs (Nat.le_add_left _ _), ht, hl, hf⟩

/-- Of what stands below a segment, each is a segment of the document. -/
theorem Sound.mem_subtree (h : d.Sound) : ∀ (room id : Nat) {s : Segment}, d.segment? id = some s →
    ∀ x ∈ (d.subtree room id).preorder, ∃ i, d.segment? i = some x
  | 0, id, s, hs, x, hx => by
    have hx' : x ∈ [d.segment id] := hx
    rw [List.mem_singleton.mp hx', segment_eq hs]
    exact ⟨id, hs⟩
  | room + 1, id, s, hs, x, hx => by
    rw [subtree_succ hs, Tree.preorder, Tree.preorderAll_eq_flatMap] at hx
    rcases List.mem_cons.mp hx with rfl | hx
    · exact ⟨id, hs⟩
    · obtain ⟨t, ht, hx⟩ := List.mem_flatMap.mp hx
      obtain ⟨c, hc, rfl⟩ := List.mem_map.mp ht
      obtain ⟨u, hu, -⟩ := h.listed id s hs c hc
      exact h.mem_subtree room c hu x hx

/-- All that stands below a segment of a sound document is in its tree: its parent is, and lists it. -/
theorem Sound.subtree_subset (h : d.Sound) : ∀ (n i : Nat) {s : Segment}, i ≤ n → d.segment? i = some s →
    ∃ room, d.segmentCount ≤ i + room ∧ (d.subtree room i).preorder ⊆ d.tree.preorder := by
  intro n
  induction n with
  | zero =>
    intro i s hi hs
    obtain rfl : i = rootId := Nat.le_zero.mp hi
    exact ⟨d.segmentCount, Nat.le_add_left _ _, List.Subset.refl _⟩
  | succ n ih =>
    intro i s hi hs
    by_cases hroot : i = rootId
    · subst hroot
      exact ⟨d.segmentCount, Nat.le_add_left _ _, List.Subset.refl _⟩
    obtain ⟨p, parent, hlt, -, hp, hcount, -⟩ := h.above i s hs hroot
    obtain ⟨room, hroom, hsub⟩ := ih p (by omega) hp
    have hlisted : i ∈ parent.children := List.count_pos_iff.mp (by rw [hcount]; exact Nat.one_pos)
    have hplt := segment?_lt hp
    obtain ⟨below, rfl⟩ : ∃ below, room = below + 1 := ⟨room - 1, by omega⟩
    refine ⟨below, by omega, ?_⟩
    intro x hx
    refine hsub ?_
    rw [subtree_succ hp, Tree.preorder, Tree.preorderAll_eq_flatMap]
    exact List.mem_cons_of_mem _ (List.mem_flatMap.mpr ⟨_, List.mem_map_of_mem hlisted, hx⟩)

/-- The tree of a sound document has all its segments, and no others. -/
theorem Sound.mem_tree_iff (h : d.Sound) {s : Segment} : s ∈ d.tree.preorder ↔ ∃ i, d.segment? i = some s := by
  constructor
  · intro hs
    obtain ⟨root, hroot, -⟩ := h.root
    exact h.mem_subtree _ _ hroot s (tree_eq d ▸ hs)
  · rintro ⟨i, hi⟩
    obtain ⟨room, hroom, hsub⟩ := h.subtree_subset i i (Nat.le_refl i) hi
    have hlt := segment?_lt hi
    obtain ⟨below, rfl⟩ : ∃ below, room = below + 1 := ⟨room - 1, by omega⟩
    refine hsub ?_
    rw [subtree_succ hi, Tree.preorder]
    exact List.mem_cons_self

/-! ## What stands in a document -/

mutual

/-- A tree stands at `id`, read back; the numbers below grow. -/
def Stands (d : Document) (id : Nat) : Tree Segment → Prop
  | .node s children => ∃ t, d.segment? id = some t ∧ s.Recovered t ∧ StandAll d id t.children children

/-- Trees stand at the given numbers, all behind `above`. -/
def StandAll (d : Document) (above : Nat) (ids : List Nat) : List (Tree Segment) → Prop
  | [] => ids = []
  | t :: rest => ∃ c cs, ids = c :: cs ∧ above < c ∧ Stands d c t ∧ StandAll d above cs rest

end

mutual

/-- What stands at a number does not depend on what has a smaller one. -/
theorem Stands.keep {id : Nat} (hk : ∀ i s, id ≤ i → d.segment? i = some s → d'.segment? i = some s) :
    ∀ {t : Tree Segment}, d.Stands id t → d'.Stands id t
  | .node _ _, ⟨t, ht, hr, hall⟩ =>
    ⟨t, hk id t (Nat.le_refl id) ht, hr, hall.keep fun i u hi => hk i u (Nat.le_of_lt hi)⟩

theorem StandAll.keep {above : Nat} (hk : ∀ i s, above < i → d.segment? i = some s → d'.segment? i = some s) :
    ∀ {ts : List (Tree Segment)} {ids : List Nat}, d.StandAll above ids ts → d'.StandAll above ids ts
  | [], _, h => h
  | _ :: _, _, ⟨c, cs, hids, hlt, ht, hall⟩ =>
    ⟨c, cs, hids, hlt, ht.keep fun i u hi => hk i u (Nat.lt_of_lt_of_le hlt hi), hall.keep hk⟩

end

mutual

theorem Stands.subtree : ∀ (t : Tree Segment) {id : Nat} (room : Nat), d.Stands id t → d.segmentCount ≤ id + room →
    t.Matches Segment.Recovered (d.subtree room id)
  | .node _ _, id, 0, ⟨t, ht, _⟩, hroom => by
    have := segment?_lt ht
    omega
  | .node s children, id, room + 1, ⟨t, ht, hr, hall⟩, hroom => by
    rw [subtree_succ ht]
    exact ⟨hr, StandAll.subtree children room hall (by omega)⟩

theorem StandAll.subtree : ∀ (ts : List (Tree Segment)) {above : Nat} {ids : List Nat} (room : Nat),
    d.StandAll above ids ts → d.segmentCount ≤ above + (room + 1) →
    Tree.AllMatch Segment.Recovered ts (ids.map (d.subtree room))
  | [], _, ids, _, h, _ => by
    obtain rfl : ids = [] := h
    trivial
  | t :: rest, _, _, room, ⟨c, cs, hids, hlt, ht, hall⟩, hroom => by
    subst hids
    exact ⟨Stands.subtree t room ht (by omega), StandAll.subtree rest room hall hroom⟩

end

theorem Stands.tree {t : Tree Segment} (h : d.Stands rootId t) : t.Matches Segment.Recovered d.tree :=
  Stands.subtree t _ h (Nat.le_add_left _ _)

/-! ## Making it again -/

/-- Trees are still to be made below the segment `s`: there is a slot and room for each. -/
structure Ready (d : Document) (id : Nat) (s : Segment) (ts : List (Tree Segment)) : Prop where
  found : d.segment? id = some s
  type : s.type ∈ d.schema.allSegments
  known : ∀ c ∈ s.children, c < d.segmentCount
  fits : Tree.AllFit d.schema s.type s.level ts
  room : ∀ slot ∈ s.type.children,
    (d.childrenNamed s slot.segmentType).length + (Tree.names ts).count slot.segmentType ≤ slot.maxOccurrence

/-- The trees were made below the segment `s`, and nothing else has changed. -/
structure Grown (d d' : Document) (id : Nat) (s : Segment) (ts : List (Tree Segment)) : Prop where
  schema : d'.schema = d.schema
  header : d'.header = d.header
  count : d.segmentCount ≤ d'.segmentCount
  kept : ∀ i u, i ≠ id → d.segment? i = some u → d'.segment? i = some u
  grown : ∃ cs, d'.segment? id = some { s with children := s.children ++ cs } ∧ d'.StandAll id cs ts

/-- A segment that was added below `s`, with its fields filled. -/
def plant (d : Document) (id : Nat) (s : Segment) (type : SegmentType) (fields : List (Option Value)) : Document :=
  (d.append id s type).putFields d.segmentCount fields

/-- That segment itself. -/
def planted (id : Nat) (s : Segment) (type : SegmentType) (fields : List (Option Value)) : Segment :=
  ⟨type, some id, s.level + 1, fields, []⟩

variable {id : Nat} {s : Segment} {type : SegmentType} {fields : List (Option Value)}

theorem segment?_plant_new (hid : id < d.segmentCount) :
    (d.plant id s type fields).segment? d.segmentCount = some (planted id s type fields) := by
  rw [plant, segment?_putFields, segment?_append_new hid, Option.map_some, if_pos rfl]
  rfl

theorem segment?_plant_old {i : Nat} {u : Segment} (h : d.segment? i = some u) :
    (d.plant id s type fields).segment? i =
      some { u with children := if i = id then u.children ++ [d.segmentCount] else u.children } := by
  have hlt := segment?_lt h
  have hne : i ≠ d.segmentCount := Nat.ne_of_lt hlt
  rw [plant, segment?_putFields, segment?_append_old hlt, h, Option.map_some, Option.map_some, if_neg hne]

theorem segmentCount_plant : (d.plant id s type fields).segmentCount = d.segmentCount + 1 := by
  rw [plant, segmentCount_putFields, segmentCount_append]

/-- Putting back the fields that there are changes nothing. -/
theorem putFields_self (h : d.segment? id = some s) : d.putFields id s.fields = d := by
  have hsame : d.segments.modify id (fun t => { t with fields := s.fields }) = d.segments := by
    refine Array.ext_getElem? fun i => ?_
    rw [Array.getElem?_modify]
    split
    · rename_i he
      subst he
      have h' : d.segments[id]? = some s := h
      rw [h', Option.map_some]
    · rfl
  rw [putFields, hsame]

theorem putFields_putFields (first : List (Option Value)) :
    (d.putFields id first).putFields id fields = d.putFields id fields := by
  have hsame : (d.segments.modify id fun t => { t with fields := first }).modify id (fun t => { t with fields := fields }) =
      d.segments.modify id fun t => { t with fields := fields } := by
    refine Array.ext_getElem? fun i => ?_
    simp only [Array.getElem?_modify]
    split
    · rw [Option.map_map]
      rfl
    · rfl
  simp only [putFields, hsame]

/-- Changing a declared field where fields were put: the change is put with them. -/
theorem changeField_putFields {t : Segment} (ht : d.segment? id = some t) (hnd : (t.type.fields.map (·.name)).Nodup)
    {i : Nat} {decl : FieldDecl} (hi : t.type.fields[i]? = some decl) (cells : List (Option Value))
    (change : FieldDecl → Except ModelError (Option Value)) :
    (d.putFields id cells).changeField id decl.name change =
      (change decl).map fun value? => d.putFields id (cells.set i value?) := by
  have hfound : (d.putFields id cells).segment? id = some { t with fields := cells } := by
    rw [segment?_putFields, ht, Option.map_some, if_pos rfl]
  have hresolve : Segment.resolve { t with fields := cells } (d.putFields id cells).schema.ns decl.name = .ok (i, decl) :=
    Segment.resolve_declared hnd hi
  simp only [changeField, hfound, hresolve, putFields_putFields]

theorem Ready.lt (h : d.Ready id s ts) : id < d.segmentCount := segment?_lt h.found

variable {t : Tree Segment} {ts : List (Tree Segment)}

/-- The next tree's type is found under its own name, and has room. -/
theorem Ready.addChild (hm : d.schema.Resolved) (h : d.Ready id s (t :: ts)) :
    d.addChild id t.value.type.name = .ok (d.append id s t.value.type, d.segmentCount) := by
  obtain ⟨slot, hslot, hn, hchild⟩ := h.fits.1.childOf? hm h.type
  have hroom := h.room slot hslot
  have hlt : (d.childrenNamed s slot.segmentType).length < slot.maxOccurrence := by
    rw [Tree.names, List.map_cons, ← hn, List.count_cons_self] at hroom
    omega
  rw [hn] at hlt
  simp only [Document.addChild, h.found, hchild, hn, hlt, if_true]
  rfl

/-- Below a segment that was just added, its own children can be made. -/
theorem Ready.child {children : List (Tree Segment)} {own : Segment} (h : d.Ready id s (.node own children :: ts)) :
    (d.plant id s own.type fields).Ready d.segmentCount (planted id s own.type fields) children := by
  obtain ⟨⟨hlevel, -⟩, ⟨htype, -, hlimits, hall⟩, -⟩ := h.fits
  refine ⟨segment?_plant_new h.lt, htype, fun c hc => (by cases hc), ?_, fun slot hslot => ?_⟩
  · have hl : own.level = s.level + 1 := hlevel
    rwa [hl] at hall
  · have := hlimits slot hslot
    show 0 + _ ≤ _
    omega

theorem Grown.typeName? (h : d.Grown d' id s ts) (hs : d.segment? id = some s) {i : Nat} (hi : i < d.segmentCount) :
    d'.typeName? i = d.typeName? i := by
  obtain ⟨u, hu⟩ : ∃ u, d.segment? i = some u := ⟨_, Array.getElem?_eq_getElem hi⟩
  by_cases he : i = id
  · subst he
    obtain ⟨cs, hcs, -⟩ := h.grown
    rw [Document.typeName?, Document.typeName?, hcs, hs]
    rfl
  · rw [Document.typeName?, Document.typeName?, h.kept i u he hu, hu]

/-- The trees behind one that was made can be made. -/
theorem Ready.rest {children : List (Tree Segment)} {own : Segment} (h : d.Ready id s (.node own children :: ts))
    (hg : (d.plant id s own.type fields).Grown d' d.segmentCount (planted id s own.type fields) children) :
    d'.Ready id { s with children := s.children ++ [d.segmentCount] } ts := by
  have hne : id ≠ d.segmentCount := Nat.ne_of_lt h.lt
  have hcount := hg.count
  rw [segmentCount_plant] at hcount
  have hschema : d'.schema = d.schema := hg.schema
  obtain ⟨-, -, hall⟩ := h.fits
  refine ⟨?_, hschema ▸ h.type, fun c hc => ?_, hschema ▸ hall, fun slot hslot => ?_⟩
  · refine hg.kept id _ hne ?_
    rw [segment?_plant_old h.found, if_pos rfl]
  · rcases List.mem_append.mp hc with hc | hc
    · have := h.known c hc
      omega
    · rw [List.mem_singleton.mp hc]
      omega
  · have hnamed : d'.childrenNamed { s with children := s.children ++ [d.segmentCount] } slot.segmentType =
        d.childrenNamed s slot.segmentType ++ if own.type.name = slot.segmentType then [d.segmentCount] else [] := by
      have hself : (d.append id s own.type).childrenNamed { s with children := s.children ++ [d.segmentCount] }
          slot.segmentType = _ := childrenNamed_append_self h.lt h.known
      rw [← hself]
      refine List.filter_congr fun c hc => ?_
      have hlt : c < (d.plant id s own.type fields).segmentCount := by
        rw [segmentCount_plant]
        rcases List.mem_append.mp hc with hc | hc
        · exact Nat.lt_succ_of_lt (h.known c hc)
        · rw [List.mem_singleton.mp hc]
          exact Nat.lt_succ_self _
      rw [hg.typeName? (segment?_plant_new h.lt) hlt, plant, typeName?_putFields]
    have hroom := h.room slot hslot
    have hnames : Tree.names (.node own children :: ts) = own.type.name :: Tree.names ts := rfl
    simp only [hnames, List.count_cons, beq_iff_eq] at hroom
    rw [hnamed, List.length_append]
    split
    · rename_i he
      rw [if_pos he] at hroom
      rw [List.length_singleton]
      omega
    · rename_i he
      rw [if_neg he] at hroom
      rw [List.length_nil]
      omega

theorem Grown.nil (h : d.segment? id = some s) : d.Grown d id s [] :=
  ⟨rfl, rfl, Nat.le_refl _, fun _ _ _ hu => hu, [], by rw [List.append_nil, h], rfl⟩

/-- One tree was made, and then those behind it. -/
theorem Grown.cons {d'' : Document} {children : List (Tree Segment)} {own : Segment}
    (h : d.Ready id s (.node own children :: ts)) (hr : own.Recovered (planted id s own.type fields))
    (hg : (d.plant id s own.type fields).Grown d' d.segmentCount (planted id s own.type fields) children)
    (hrest : d'.Grown d'' id { s with children := s.children ++ [d.segmentCount] } ts) :
    d.Grown d'' id s (.node own children :: ts) := by
  have hlt := h.lt
  have hcount := hg.count
  rw [segmentCount_plant] at hcount
  obtain ⟨below, hbelow, hstand⟩ := hg.grown
  obtain ⟨cs, hcs, hall⟩ := hrest.grown
  refine ⟨hrest.schema.trans hg.schema, hrest.header.trans hg.header, ?_, fun i u hi hu => ?_,
    d.segmentCount :: cs, ?_, d.segmentCount, cs, rfl, hlt, ?_, hall⟩
  · have := hrest.count
    omega
  · have hold : (d.plant id s own.type fields).segment? i = some u := by
      rw [segment?_plant_old hu, if_neg hi]
    exact hrest.kept i u hi (hg.kept i u (Nat.ne_of_lt (segment?_lt hu)) hold)
  · rw [hcs, List.append_assoc]
    rfl
  · refine ⟨_, hrest.kept _ _ (Nat.ne_of_gt hlt) hbelow, ⟨hr.type, hr.level, hr.fields⟩, ?_⟩
    exact hstand.keep fun i u hi hu => hrest.kept i u (by omega) hu

/-! ## The document again -/

/-- A new document of the same type, with the header fields of `d` set. -/
def renew (d : Document) (creation : Stamp) : Document :=
  { new d.schema creation with header := (seededHeader d.key).setAll d.header.entries }

/-- What comes back of a document: its type, its header, and its tree with every set field recovered. A
header field that it has not set is as in a new document. -/
structure Returned (d d' : Document) : Prop where
  schema : d'.schema = d.schema
  header : ∀ f, d'.header.get f = (d.header.get f).or ((seededHeader d.key).get f)
  tree : d.tree.Matches Segment.Recovered d'.tree

theorem Sound.ready (h : d.Sound) (creation : Stamp) :
    (d.renew creation).Ready rootId (.blank d.schema.root none 0) d.tree.children := by
  obtain ⟨hfits, ht, hl, -⟩ := h.tree_fits
  cases htree : d.tree with
  | node own children =>
    rw [htree] at hfits ht hl
    simp only [Tree.value] at ht hl
    obtain ⟨-, -, hlimits, hall⟩ := hfits
    rw [ht] at hlimits hall
    rw [hl] at hall
    refine ⟨rfl, List.mem_cons_self, fun c hc => (by cases hc), hall, fun slot hslot => ?_⟩
    have := hlimits slot hslot
    show 0 + _ ≤ _
    rw [Nat.zero_add]
    exact this

theorem Sound.returned (hm : d.schema.Resolved) (h : d.Sound) {creation : Stamp}
    (hg : (d.renew creation).Grown d' rootId (.blank d.schema.root none 0) d.tree.children) : d.Returned d' := by
  obtain ⟨-, ht, hl, hf⟩ := h.tree_fits
  refine ⟨hg.schema, fun f => ?_, Stands.tree ?_⟩
  · rw [hg.header]
    exact Header.get_setAll_entries d.header (seededHeader d.key) f
  · cases htree : d.tree with
    | node own children =>
      rw [htree] at ht hl hf hg
      simp only [Tree.value] at ht hl hf
      obtain ⟨cs, hcs, hall⟩ := hg.grown
      refine ⟨_, hcs, ⟨ht.symm, hl.symm, ?_⟩, hall⟩
      rw [hf, List.zip_nil_right]
      show List.Forall₂ _ [] (List.replicate d.schema.root.fields.length none)
      rw [hm.rootFields]
      exact .nil

end Document

end DocWire
