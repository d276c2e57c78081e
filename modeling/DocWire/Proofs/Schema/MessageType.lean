/-
  DocWire.Proofs.Schema.MessageType — what a compiled message type is.

  `Resolved` says of a message type alone what every other proof needs of it: names are distinct wherever
  they are looked up, every slot refers to a segment type of the message type, and every segment type
  stands at one level. `Realizes` ties a segment type to its definition.

  `compileMessageType_accepts_wellFormed`: references are followed to an end, and a definition compiles exactly
  when it is well-formed; the message type then holds the root and the reached types, and every slot carries
  the length of all chains of references that lead to its type.
-/

import DocWire.Proofs.Lookup
import DocWire.Proofs.Schema.Compile

namespace DocWire

theorem TypeKey.segmentKey_inj {k : TypeKey} {a b : String} : k.segmentKey a = k.segmentKey b ↔ a = b := by
  simp [TypeKey.segmentKey]

namespace MessageType

structure Resolved (m : MessageType) : Prop where
  rootName : m.root.name = rootType
  rootFields : m.root.fields = []
  keys : ∀ t ∈ m.allSegments, t.key = m.key.segmentKey t.name
  names : (m.allSegments.map (·.name)).Nodup
  fields : ∀ t ∈ m.allSegments, (t.fields.map (·.name)).Nodup
  children : ∀ t ∈ m.allSegments, (t.children.map (·.segmentType)).Nodup
  rootLevel : ∀ slot ∈ m.root.children, slot.level = 1
  /-- A slot refers to a segment type, and that type's slots stand one level below it. -/
  slots : ∀ t ∈ m.allSegments, ∀ slot ∈ t.children, ∃ u ∈ m.segments,
    u.name = slot.segmentType ∧ slot.key = u.key ∧ ∀ below ∈ u.children, below.level = slot.level + 1

theorem Resolved.segment?_key {m : MessageType} (h : m.Resolved) {t : SegmentType} (ht : t ∈ m.allSegments) :
    m.segment? t.key = some t := by
  refine Lookup.find?_name (f := SegmentType.key) ?_ ht
  have hk : m.allSegments.map (·.key) = (m.allSegments.map (·.name)).map m.key.segmentKey := by
    rw [List.map_map]
    exact List.map_congr_left h.keys
  rw [hk]
  exact h.names.map fun _ _ e => TypeKey.segmentKey_inj.mp e

/-- A declared child type is found under its own name, whatever the namespace. -/
theorem Resolved.childOf?_slot {m : MessageType} (h : m.Resolved) {t : SegmentType} (ht : t ∈ m.allSegments)
    {slot : ChildSlot} (hs : slot ∈ t.children) :
    ∃ u ∈ m.segments, u.name = slot.segmentType ∧ slot.key = u.key ∧
      m.childOf? t slot.segmentType = some (slot, u) := by
  obtain ⟨u, hu, hn, hk, -⟩ := h.slots t ht slot hs
  refine ⟨u, hu, hn, hk, ?_⟩
  obtain ⟨i, hi⟩ := List.getElem?_of_mem hs
  have hidx : declaredIndex? m.ns (t.children.map (·.segmentType)) slot.segmentType = some i :=
    Lookup.declaredIndex?_declared (h.children t ht) (by rw [List.getElem?_map, hi]; rfl)
  simp only [childOf?, SegmentType.child?, hidx, Option.bind_some, hi, hk,
    h.segment?_key (List.mem_cons_of_mem _ hu), Option.map_some]

/-- What any requested name finds is a slot with its segment type. -/
theorem Resolved.childOf?_some {m : MessageType} (h : m.Resolved) {t u : SegmentType} (ht : t ∈ m.allSegments)
    {requested : String} {slot : ChildSlot} (hc : m.childOf? t requested = some (slot, u)) :
    slot ∈ t.children ∧ u ∈ m.segments ∧ u.name = slot.segmentType ∧ slot.key = u.key := by
  obtain ⟨slot', hslot, hseg⟩ := Option.bind_eq_some_iff.mp hc
  obtain ⟨u', hu', he⟩ := Option.map_eq_some_iff.mp hseg
  cases he
  obtain ⟨i, -, hi⟩ := Option.bind_eq_some_iff.mp hslot
  have hs : slot ∈ t.children := List.mem_of_getElem? hi
  obtain ⟨v, hv, hn, hk, -⟩ := h.slots t ht slot hs
  rw [hk, h.segment?_key (List.mem_cons_of_mem _ hv)] at hu'
  cases hu'
  exact ⟨hs, hv, hn, hk⟩

/-- The slots that child definitions come to at `level`, each referring to the segment type of its name. -/
def SlotsOf (m : MessageType) (level : Nat) (children : List ChildDef) (slots : List ChildSlot) : Prop :=
  List.Forall₂ (fun c slot => ∃ u ∈ m.segments, u.name = c.segmentType ∧ slot = Compile.childSlot level c u)
    children slots

/-- A segment type at `level` is what its definition says. -/
structure Realizes (m : MessageType) (level : Nat) (s : SegmentDef) (t : SegmentType) : Prop where
  name : t.name = s.segmentType
  description : t.description = s.description
  fields : Compile.compileFields s.segmentType s.fields = .ok t.fields
  children : m.SlotsOf (level + 1) s.children t.children

end MessageType

namespace Compile

/-- What is known of a message type that was compiled. -/
structure Compiled (d : MessageDef) (m : MessageType) (done : Leveled) : Prop where
  listed : d.listed.Nodup
  noRoot : rootType ∉ d.listed
  closed : Closed d done
  rootUndone : rootType ∉ done.map (·.2.name)
  rootChildren : (d.root.map (·.segmentType)).Nodup
  slots : Slots 1 done d.root m.root.children
  key : m.key = d.key
  root : m.root = ⟨d.key.segmentKey rootType, rootType, d.description, [], m.root.children⟩
  segments : m.segments = done.map (·.2)

theorem compileMessageType_ok {d : MessageDef} {m : MessageType} (h : compileMessageType d = .ok m) :
    ∃ done, Compiled d m done := by
  unfold compileMessageType at h
  split at h
  · cases h
  rename_i hclash
  obtain ⟨hnd, hroot, -⟩ := clashingSegment?_eq_none.mp hclash
  obtain ⟨⟨slots, done⟩, hslots, rfl⟩ := Outcome.map_eq_ok.mp h
  obtain ⟨hc, hg, hs, hrn, -⟩ := compileChildren_delivers (compileSegment_delivers d _ _ _) rootType d.root []
    [] slots done (closed_nil d) (fun c hc => .top hc) hslots
  refine ⟨done, hnd, hroot, hc, fun hx => ?_, hrn, hs, rfl, rfl, rfl⟩
  obtain ⟨p, hp, he⟩ := List.mem_map.mp hx
  rcases hg.fresh p hp with hp | hp
  · cases hp
  · exact hp (by rw [he]; exact List.mem_singleton.mpr rfl)

theorem Compiled.done_of_reaches {d : MessageDef} {m : MessageType} {done : Leveled} (h : Compiled d m done)
    {n : Nat} {name : String} (hr : d.Reaches n name) : ∃ t, (n, t) ∈ done ∧ t.name = name :=
  h.closed.done_of_reaches h.listed h.slots hr

theorem Compiled.oneLevel {d : MessageDef} {m : MessageType} {done : Leveled} (h : Compiled d m done)
    {a b : Nat} {name : String} (ha : d.Reaches a name) (hb : d.Reaches b name) : a = b := by
  obtain ⟨t, ht, hn⟩ := h.done_of_reaches ha
  obtain ⟨u, hu, hm⟩ := h.done_of_reaches hb
  exact congrArg Prod.fst (h.closed.unique ht hu (hn.trans hm.symm))

/-- The definition behind a reached type. -/
theorem Compiled.madeFrom {d : MessageDef} {m : MessageType} {done : Leveled} (h : Compiled d m done)
    {n : Nat} {s : SegmentDef} (hs : s ∈ d.segments) (hr : d.Reaches n s.segmentType) :
    ∃ t, (n, t) ∈ done ∧ MadeFrom d.key done n s t := by
  obtain ⟨t, ht, hn⟩ := h.done_of_reaches hr
  obtain ⟨s', hs', hm⟩ := h.closed.made _ ht
  obtain rfl := List.inj_on_of_nodup_map h.listed hs hs' (hn.symm.trans hm.name)
  exact ⟨t, ht, hm⟩

theorem Compiled.wellFormed {d : MessageDef} {m : MessageType} {done : Leveled} (h : Compiled d m done) :
    d.WellFormed where
  distinct := h.listed
  noRoot := h.noRoot
  rootUnreached n hr := by
    obtain ⟨t, ht, hn⟩ := h.done_of_reaches hr
    exact h.rootUndone (List.mem_map.mpr ⟨_, ht, hn⟩)
  defined n name hr := by
    obtain ⟨t, ht, hn⟩ := h.done_of_reaches hr
    obtain ⟨s, hs, hm⟩ := h.closed.made _ ht
    exact List.mem_map.mpr ⟨s, hs, hm.name.symm.trans hn⟩
  rootChildren := h.rootChildren
  children n s hs hr := (h.madeFrom hs hr).choose_spec.2.distinct
  fields n s hs hr := (compileFields_ok_iff.mp (h.madeFrom hs hr).choose_spec.2.fields).1
  acyclic n name hr hc := by
    obtain ⟨k, hk, hr'⟩ := hr.chain hc
    have := h.oneLevel hr hr'
    omega
  oneLevel _ _ _ ha hb := h.oneLevel ha hb

/-- The slots under a segment type, and what they refer to. -/
theorem Compiled.slot {d : MessageDef} {m : MessageType} {done : Leveled} (h : Compiled d m done)
    {t : SegmentType} (ht : t ∈ m.allSegments) {slot : ChildSlot} (hs : slot ∈ t.children) :
    ∃ c u, (slot.level, u) ∈ done ∧ u.name = c.segmentType ∧ slot = childSlot slot.level c u := by
  rcases List.mem_cons.mp ht with rfl | ht
  · obtain ⟨c, -, u, hu, hn, rfl⟩ := Pairing.right h.slots hs
    exact ⟨c, u, hu, hn, rfl⟩
  · rw [h.segments] at ht
    obtain ⟨p, hp, rfl⟩ := List.mem_map.mp ht
    obtain ⟨s, -, hm⟩ := h.closed.made p hp
    obtain ⟨c, -, u, hu, hn, rfl⟩ := Pairing.right hm.slots hs
    exact ⟨c, u, hu, hn, rfl⟩

theorem Compiled.resolved {d : MessageDef} {m : MessageType} {done : Leveled} (h : Compiled d m done) :
    m.Resolved := by
  have segs : ∀ t ∈ m.segments, ∃ p ∈ done, p.2 = t := fun t ht => by
    rw [h.segments] at ht
    exact List.mem_map.mp ht
  refine ⟨by rw [h.root], by rw [h.root], fun t ht => ?_, ?_, fun t ht => ?_, fun t ht => ?_, fun slot hs => ?_,
    fun t ht slot hs => ?_⟩
  · rcases List.mem_cons.mp ht with rfl | ht
    · rw [h.root, h.key]
    · obtain ⟨p, hp, rfl⟩ := segs t ht
      obtain ⟨s, -, hm⟩ := h.closed.made p hp
      rw [hm.key, h.key]
  · have hn : m.root.name = rootType := by rw [h.root]
    rw [MessageType.allSegments, List.map_cons, hn, h.segments, List.map_map]
    exact List.nodup_cons.mpr ⟨h.rootUndone, h.closed.distinct⟩
  · rcases List.mem_cons.mp ht with rfl | ht
    · rw [h.root]
      exact List.nodup_nil
    · obtain ⟨p, hp, rfl⟩ := segs t ht
      obtain ⟨s, -, hm⟩ := h.closed.made p hp
      rw [compileFields_names hm.fields]
      exact (compileFields_ok_iff.mp hm.fields).1
  · rcases List.mem_cons.mp ht with rfl | ht
    · rw [← Pairing.names h.slots (f := (·.segmentType)) fun c slot ⟨u, _, _, e⟩ => by rw [e]; rfl]
      exact h.rootChildren
    · obtain ⟨p, hp, rfl⟩ := segs t ht
      obtain ⟨s, -, hm⟩ := h.closed.made p hp
      rw [← Pairing.names hm.slots (f := (·.segmentType)) fun c slot ⟨u, _, _, e⟩ => by rw [e]; rfl]
      exact hm.distinct
  · obtain ⟨c, -, u, -, -, rfl⟩ := Pairing.right h.slots hs
    rfl
  · obtain ⟨c, u, hu, hn, he⟩ := h.slot ht hs
    refine ⟨u, by rw [h.segments]; exact List.mem_map.mpr ⟨_, hu, rfl⟩, by rw [he]; exact hn, by rw [he]; rfl,
      fun below hb => ?_⟩
    obtain ⟨s, -, hm⟩ := h.closed.made _ hu
    obtain ⟨c', -, v, -, -, rfl⟩ := Pairing.right hm.slots hb
    rfl

theorem resolved_of_compileMessageType {d : MessageDef} {m : MessageType} (h : compileMessageType d = .ok m) :
    m.Resolved :=
  (compileMessageType_ok h).choose_spec.resolved

/-- A slot stands at the level of every chain that leads to its type. -/
theorem Compiled.level_iff {d : MessageDef} {m : MessageType} {done : Leveled} (h : Compiled d m done)
    {t : SegmentType} (ht : t ∈ m.allSegments) {slot : ChildSlot} (hs : slot ∈ t.children) (n : Nat) :
    d.Reaches n slot.segmentType ↔ n = slot.level := by
  obtain ⟨c, u, hu, hn, he⟩ := h.slot ht hs
  have hr : d.Reaches slot.level slot.segmentType := by
    have := h.closed.reached _ hu
    rw [hn] at this
    rw [he] at this ⊢
    exact this
  exact ⟨fun hr' => h.oneLevel hr' hr, fun e => e ▸ hr⟩

theorem Compiled.segment_iff {d : MessageDef} {m : MessageType} {done : Leveled} (h : Compiled d m done)
    (name : String) : (∃ t ∈ m.segments, t.name = name) ↔ ∃ n, d.Reaches n name := by
  rw [h.segments]
  constructor
  · rintro ⟨t, ht, rfl⟩
    obtain ⟨p, hp, rfl⟩ := List.mem_map.mp ht
    exact ⟨p.1, h.closed.reached p hp⟩
  · rintro ⟨n, hr⟩
    obtain ⟨t, ht, hn⟩ := h.done_of_reaches hr
    exact ⟨t, List.mem_map.mpr ⟨_, ht, rfl⟩, hn⟩

theorem Compiled.slotsOf {d : MessageDef} {m : MessageType} {done : Leveled} (h : Compiled d m done) {level : Nat}
    {children : List ChildDef} {slots : List ChildSlot} (hs : Slots level done children slots) :
    m.SlotsOf level children slots := by
  refine hs.imp fun c slot ⟨u, hu, hn, he⟩ => ⟨u, ?_, hn, he⟩
  rw [h.segments]
  exact List.mem_map.mpr ⟨_, hu, rfl⟩

theorem Compiled.realizes {d : MessageDef} {m : MessageType} {done : Leveled} (h : Compiled d m done)
    {t : SegmentType} (ht : t ∈ m.segments) :
    ∃ s ∈ d.segments, ∃ n, d.Reaches n t.name ∧ m.Realizes n s t := by
  rw [h.segments] at ht
  obtain ⟨p, hp, rfl⟩ := List.mem_map.mp ht
  obtain ⟨s, hs, hm⟩ := h.closed.made p hp
  exact ⟨s, hs, p.1, h.closed.reached p hp, hm.name, hm.description, hm.fields, h.slotsOf hm.slots⟩

theorem compileMessageType_accepts {d : MessageDef} (hd : d.WellFormed) : ∃ m, compileMessageType d = .ok m := by
  have hclash : clashingSegment? [] d.segments = none :=
    clashingSegment?_eq_none.mpr ⟨hd.distinct, hd.noRoot, fun _ _ => List.not_mem_nil⟩
  obtain ⟨r, hr⟩ := compileChildren_accepts (compileSegment_delivers d [rootType] rootType 1)
    rootType d.root [] [] (closed_nil d) (fun c hc => .top hc)
    (fun c hc done hdone => compileSegment_accepts hd _ _ _ _ _
      (fun a ha => .inl (List.mem_singleton.mp ha)) (.top hc) hdone)
    hd.rootChildren (fun _ _ => List.not_mem_nil)
  unfold compileMessageType
  simp only [hclash, hr, Outcome.map_ok]
  exact ⟨_, rfl⟩

/-- A definition compiles exactly when it is well-formed, and references are followed to an end: one that was
followed for ever could be given any error, and the equation would have more than one solution. What is compiled
holds the root and the reached types, each as its definition says, and every slot carries the length of all
chains of references that lead to its type. -/
theorem compileMessageType_accepts_wellFormed (d : MessageDef) :
    ((∃ m, compileMessageType d = .ok m) ↔ d.WellFormed) ∧
    (∀ compile, CompilesSegments d.key d.segments compile ↔ compile = compileSegment d.key d.segments) ∧
    ∀ m, compileMessageType d = .ok m →
      (m.key = d.key ∧ m.root.name = rootType ∧ m.root.fields = [] ∧ (m.allSegments.map (·.name)).Nodup) ∧
      (∀ name, (∃ t ∈ m.segments, t.name = name) ↔ ∃ n, d.Reaches n name) ∧
      (m.SlotsOf 1 d.root m.root.children ∧
        ∀ t ∈ m.segments, ∃ s ∈ d.segments, ∃ n, d.Reaches n t.name ∧ m.Realizes n s t) ∧
      (∀ t ∈ m.allSegments, ∀ slot ∈ t.children, ∀ n, d.Reaches n slot.segmentType ↔ n = slot.level) ∧
      (∀ t ∈ m.allSegments, ∀ slot ∈ t.children, ∃ u ∈ m.segments,
        u.name = slot.segmentType ∧ m.childOf? t slot.segmentType = some (slot, u)) := by
  refine ⟨⟨fun ⟨m, hm⟩ => ?_, compileMessageType_accepts⟩, fun compile => compilesSegments_iff, fun m hm => ?_⟩
  · obtain ⟨done, h⟩ := compileMessageType_ok hm
    exact h.wellFormed
  · obtain ⟨done, h⟩ := compileMessageType_ok hm
    have hres := h.resolved
    refine ⟨⟨h.key, hres.rootName, hres.rootFields, hres.names⟩, h.segment_iff,
      ⟨h.slotsOf h.slots, fun t ht => h.realizes ht⟩, fun t ht slot hs => h.level_iff ht hs,
      fun t ht slot hs => ?_⟩
    obtain ⟨u, hu, hn, -, hc⟩ := hres.childOf?_slot ht hs
    exact ⟨u, hu, hn, hc⟩

end Compile

end DocWire
