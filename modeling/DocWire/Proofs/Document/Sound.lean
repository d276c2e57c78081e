/-
  DocWire.Proofs.Document.Sound — what every document keeps.

  Segments are known by their numbers, so the tree of a document is only as good as the numbers in it.
  `Sound` says that they are: the root is number 0 and every other segment stands under an earlier one,
  listed there once and nowhere else; its type is the one that a slot of its parent refers to, at the level
  of that slot; no slot is overfull; and fields hold values of their kinds.

  Two operations change segments, and each keeps this: `putFields` where the new fields fit, `append` where
  a slot has room. Levels agree because a message type is resolved: all slots for a type are at one level,
  so the slots below it are one further down, whichever parent it was reached from.
-/

import DocWire.Proofs.Document.Segments
import DocWire.Proofs.Field.Acceptance
import DocWire.Proofs.Schema.MessageType

namespace DocWire

namespace Segment

/-- As many fields as are declared, each of the kind of its type. -/
def Filled (s : Segment) : Prop :=
  s.fields.length = s.type.fields.length ∧ ∀ decl v, (decl, v) ∈ s.entries → v.kind = decl.type.kind

theorem blank_filled (type : SegmentType) (parent : Option Nat) (level : Nat) : (blank type parent level).Filled := by
  refine ⟨List.length_replicate, fun decl v h => ?_⟩
  rw [entries_blank] at h
  cases h

theorem Filled.set {s : Segment} (h : s.Filled) {i : Nat} {decl : FieldDecl} (hi : s.type.fields[i]? = some decl)
    {value? : Option Value} (hv : ∀ v, value? = some v → v.kind = decl.type.kind) :
    { s with fields := s.fields.set i value? }.Filled := by
  refine ⟨(List.length_set).trans h.1, fun decl' v hm => ?_⟩
  rcases mem_entries_set hm with ⟨hdecl, hvalue⟩ | hold
  · have hdecl : s.type.fields[i]? = some decl' := hdecl
    rw [hi, Option.some_inj] at hdecl
    exact hdecl ▸ hv v hvalue
  · exact h.2 decl' v hold

end Segment

namespace Document

/-- A segment `s` that `parent` lists stands in a slot of its parent, at the level of the slot. -/
def Fits (d : Document) (parent s : Segment) : Prop :=
  s.level = parent.level + 1 ∧
    ∃ slot ∈ parent.type.children, slot.segmentType = s.type.name ∧ slot.level = s.level ∧
      d.schema.segment? slot.key = some s.type

structure Sound (d : Document) : Prop where
  root : ∃ s, d.segment? rootId = some s ∧ s.type = d.schema.root ∧ s.parent = none ∧ s.level = 0 ∧ s.fields = []
  above : ∀ i s, d.segment? i = some s → i ≠ rootId →
    ∃ p parent, p < i ∧ s.parent = some p ∧ d.segment? p = some parent ∧ parent.children.count i = 1 ∧ d.Fits parent s
  listed : ∀ p parent, d.segment? p = some parent → ∀ c ∈ parent.children,
    ∃ s, d.segment? c = some s ∧ s.parent = some p
  limits : ∀ p parent, d.segment? p = some parent → ∀ slot ∈ parent.type.children,
    (d.childrenNamed parent slot.segmentType).length ≤ slot.maxOccurrence
  types : ∀ i s, d.segment? i = some s → s.type ∈ d.schema.allSegments
  filled : ∀ i s, d.segment? i = some s → s.Filled

variable {d d' : Document}

theorem Sound.child_lt (h : d.Sound) {p c : Nat} {parent : Segment} (hp : d.segment? p = some parent)
    (hc : c ∈ parent.children) : c < d.segmentCount := by
  obtain ⟨s, hs, -⟩ := h.listed p parent hp c hc
  exact segment?_lt hs

/-- A child comes behind its parent. -/
theorem Sound.lt_child (h : d.Sound) {p c : Nat} {parent : Segment} (hp : d.segment? p = some parent)
    (hc : c ∈ parent.children) : p < c := by
  obtain ⟨s, hs, hsp⟩ := h.listed p parent hp c hc
  have hne : c ≠ rootId := by
    rintro rfl
    obtain ⟨r, hr, -, hn, -⟩ := h.root
    rw [hr, Option.some_inj] at hs
    rw [hs, hsp] at hn
    cases hn
  obtain ⟨q, -, hlt, hq, -⟩ := h.above c s hs hne
  rw [hsp, Option.some_inj] at hq
  omega

theorem Sound.parent_eq_none_iff (h : d.Sound) {i : Nat} {s : Segment} (hs : d.segment? i = some s) :
    s.parent = none ↔ i = rootId := by
  constructor
  · intro hn
    by_cases hi : i = rootId
    · exact hi
    · obtain ⟨p, -, -, hp, -⟩ := h.above i s hs hi
      rw [hn] at hp
      cases hp
  · rintro rfl
    obtain ⟨r, hr, -, hn, -⟩ := h.root
    rw [hr, Option.some_inj] at hs
    exact hs ▸ hn

/-- A segment is listed once, by its parent, and by no other. -/
theorem Sound.count_children (h : d.Sound) {i p : Nat} {s : Segment} (hs : d.segment? i = some s)
    (hp : s.parent = some p) {q : Nat} {t : Segment} (ht : d.segment? q = some t) :
    t.children.count i = if q = p then 1 else 0 := by
  have hi : i ≠ rootId := fun he => by
    rw [(h.parent_eq_none_iff hs).mpr he] at hp
    cases hp
  obtain ⟨p', parent, -, hp', hparent, hcount, -⟩ := h.above i s hs hi
  rw [hp, Option.some_inj] at hp'
  subst hp'
  split
  · rename_i he
    subst he
    rw [ht, Option.some_inj] at hparent
    exact hparent ▸ hcount
  · rename_i hne
    refine List.count_eq_zero_of_not_mem fun hc => hne ?_
    obtain ⟨u, hu, huq⟩ := h.listed q t ht i hc
    rw [hs, Option.some_inj] at hu
    rw [← hu, hp, Option.some_inj] at huq
    exact huq.symm

theorem Sound.children_nodup (h : d.Sound) {p : Nat} {parent : Segment} (hp : d.segment? p = some parent) :
    parent.children.Nodup := by
  refine List.nodup_iff_count_le_one.mpr fun c => ?_
  by_cases hc : c ∈ parent.children
  · obtain ⟨s, hs, hup⟩ := h.listed p parent hp c hc
    rw [h.count_children hs hup hp, if_pos rfl]
  · rw [List.count_eq_zero_of_not_mem hc]
    exact Nat.zero_le 1

/-- The number of a child among those of its type is how many of them stand before it. -/
theorem Sound.idxOf_childrenNamed (h : d.Sound) {p c : Nat} {parent s : Segment} (hp : d.segment? p = some parent)
    (hs : d.segment? c = some s) {ahead behind : List Nat} (hsplit : parent.children = ahead ++ c :: behind) :
    (d.childrenNamed parent s.type.name).idxOf c =
      (ahead.filter fun x => d.typeName? x == some s.type.name).length := by
  -- a child is listed once, so it is not among those ahead of it
  have hnew : c ∉ ahead := by
    have hnodup := h.children_nodup hp
    rw [hsplit] at hnodup
    intro hm
    exact List.disjoint_of_nodup_append hnodup hm List.mem_cons_self
  have hmean : (d.typeName? c == some s.type.name) = true := by
    simp [typeName?, hs]
  rw [childrenNamed, hsplit, List.filter_append,
    List.filter_cons_of_pos (p := fun x => d.typeName? x == some s.type.name) hmean,
    List.idxOf_append_of_notMem fun hm => hnew (List.mem_filter.mp hm).1, List.idxOf_cons_self, Nat.add_zero]

/-- The slots of a segment are one level below it. -/
theorem Sound.slot_level (hm : d.schema.Resolved) (h : d.Sound) {i : Nat} {s : Segment}
    (hs : d.segment? i = some s) {slot : ChildSlot} (hslot : slot ∈ s.type.children) : slot.level = s.level + 1 := by
  by_cases hi : i = rootId
  · subst hi
    obtain ⟨r, hr, ht, -, hl, -⟩ := h.root
    rw [hr, Option.some_inj] at hs
    subst hs
    rw [ht] at hslot
    rw [hm.rootLevel slot hslot, hl]
  · obtain ⟨p, parent, -, -, hp, -, -, own, hown, -, hlevel, hseg⟩ := h.above i s hs hi
    obtain ⟨u, hu, -, hk, hbelow⟩ := hm.slots parent.type (h.types p parent hp) own hown
    rw [hk, hm.segment?_key (List.mem_cons_of_mem _ hu), Option.some_inj] at hseg
    rw [← hseg] at hslot
    rw [hbelow slot hslot, hlevel]

/-! ## What keeps it -/

theorem new_sound {m : MessageType} (hm : m.Resolved) (creation : Stamp) : (new m creation).Sound := by
  have only : ∀ i s, (new m creation).segment? i = some s → i = rootId ∧ s = .blank m.root none 0 := fun _ _ => segment?_new
  refine ⟨⟨_, rfl, rfl, rfl, rfl, ?_⟩, fun i s hs hi => absurd (only i s hs).1 hi, fun p s hs => ?_,
    fun p s hs => ?_, fun i s hs => ?_, fun i s hs => ?_⟩
  · show List.replicate m.root.fields.length none = []
    rw [hm.rootFields]
    rfl
  · obtain ⟨-, rfl⟩ := only p s hs
    intro c hc
    cases hc
  · obtain ⟨-, rfl⟩ := only p s hs
    intro slot _
    exact Nat.zero_le _
  · obtain ⟨-, rfl⟩ := only i s hs
    exact List.mem_cons_self
  · obtain ⟨-, rfl⟩ := only i s hs
    exact Segment.blank_filled _ _ _

theorem Sound.header (h : d.Sound) (header : Header) : { d with header := header }.Sound :=
  ⟨h.root, h.above, h.listed, h.limits, h.types, h.filled⟩

theorem Sound.putFields (hm : d.schema.Resolved) (h : d.Sound) {id : Nat} {s : Segment}
    (hs : d.segment? id = some s) {fields : List (Option Value)} (hf : { s with fields := fields }.Filled) :
    (d.putFields id fields).Sound := by
  have old : ∀ i t, (d.putFields id fields).segment? i = some t → ∃ o, d.segment? i = some o ∧
      t = { o with fields := if i = id then fields else o.fields } := by
    intro i t ht
    rw [segment?_putFields] at ht
    obtain ⟨o, ho, he⟩ := Option.map_eq_some_iff.mp ht
    exact ⟨o, ho, he.symm⟩
  refine ⟨?_, fun i t ht hi => ?_, fun p t ht c hc => ?_, fun p t ht slot hslot => ?_, fun i t ht => ?_,
    fun i t ht => ?_⟩
  · obtain ⟨r, hr, hrt, hrp, hrl, hrf⟩ := h.root
    refine ⟨{ r with fields := if rootId = id then fields else r.fields }, ?_, hrt, hrp, hrl, ?_⟩
    · rw [segment?_putFields, hr, Option.map_some]
    · show (if rootId = id then fields else r.fields) = []
      split
      · rename_i he
        subst he
        rw [hr, Option.some_inj] at hs
        subst hs
        have hl := hf.1
        rw [hrt, hm.rootFields] at hl
        exact List.length_eq_zero_iff.mp hl
      · exact hrf
  · obtain ⟨o, ho, rfl⟩ := old i t ht
    obtain ⟨p, parent, hlt, hop, hp, hcount, hfits⟩ := h.above i o ho hi
    refine ⟨p, { parent with fields := if p = id then fields else parent.fields }, hlt, hop, ?_, hcount, hfits⟩
    rw [segment?_putFields, hp, Option.map_some]
  · obtain ⟨o, ho, rfl⟩ := old p t ht
    obtain ⟨u, hu, hup⟩ := h.listed p o ho c hc
    refine ⟨{ u with fields := if c = id then fields else u.fields }, ?_, hup⟩
    rw [segment?_putFields, hu, Option.map_some]
  · obtain ⟨o, ho, rfl⟩ := old p t ht
    have := h.limits p o ho slot hslot
    simpa only [childrenNamed, typeName?_putFields] using this
  · obtain ⟨o, ho, rfl⟩ := old i t ht
    exact h.types i o ho
  · obtain ⟨o, ho, rfl⟩ := old i t ht
    by_cases hi : i = id
    · subst hi
      rw [hs, Option.some_inj] at ho
      subst ho
      simpa only [if_true] using hf
    · simpa only [if_neg hi] using h.filled i o ho

section Append

variable {id : Nat} {s : Segment} {type : SegmentType}

/-- What is under a segment was under it before or is the new segment. -/
theorem mem_appended {p q n c : Nat} {cs : List Nat} (hc : c ∈ if p = q then cs ++ [n] else cs) :
    c ∈ cs ∨ (p = q ∧ c = n) := by
  revert hc
  split
  · rename_i he
    intro hc
    rcases List.mem_append.mp hc with hc | hc
    · exact .inl hc
    · exact .inr ⟨he, List.mem_singleton.mp hc⟩
  · exact .inl

theorem Sound.append_above (hm : d.schema.Resolved) (h : d.Sound) (hs : d.segment? id = some s) {slot : ChildSlot}
    (hslot : slot ∈ s.type.children) (hn : type.name = slot.segmentType) (hk : slot.key = type.key)
    (ht : type ∈ d.schema.segments) {i : Nat} {t : Segment} (hi : (d.append id s type).segment? i = some t)
    (hne : i ≠ rootId) : ∃ p parent, p < i ∧ t.parent = some p ∧ (d.append id s type).segment? p = some parent ∧
      parent.children.count i = 1 ∧ (d.append id s type).Fits parent t := by
  have hid := segment?_lt hs
  rcases segment?_append_cases hid hi with ⟨rfl, rfl⟩ | ⟨o, ho, rfl⟩
  · refine ⟨id, _, hid, rfl, segment?_append_kept hs, ?_, rfl, slot, hslot, hn.symm, h.slot_level hm hs hslot, ?_⟩
    · have hnone : d.segmentCount ∉ s.children := fun hc => Nat.lt_irrefl _ (h.child_lt hs hc)
      simp [List.count_append, List.count_eq_zero_of_not_mem hnone]
    · show d.schema.segment? slot.key = some type
      rw [hk, hm.segment?_key (List.mem_cons_of_mem _ ht)]
  · obtain ⟨p, parent, hlt, hop, hp, hcount, hfits⟩ := h.above i o ho hne
    refine ⟨p, _, hlt, hop, segment?_append_kept hp, ?_, hfits⟩
    have hne' : d.segmentCount ≠ i := by
      have := segment?_lt ho
      omega
    show List.count i (if p = id then parent.children ++ [d.segmentCount] else parent.children) = 1
    split
    · simp [List.count_append, hcount, hne']
    · exact hcount

theorem Sound.append_listed (h : d.Sound) (hs : d.segment? id = some s) {p c : Nat} {t : Segment}
    (hp : (d.append id s type).segment? p = some t) (hc : c ∈ t.children) :
    ∃ u, (d.append id s type).segment? c = some u ∧ u.parent = some p := by
  have hid := segment?_lt hs
  rcases segment?_append_cases hid hp with ⟨rfl, rfl⟩ | ⟨o, ho, rfl⟩
  · cases hc
  · rcases mem_appended hc with hc | ⟨rfl, rfl⟩
    · obtain ⟨u, hu, hup⟩ := h.listed p o ho c hc
      exact ⟨_, segment?_append_kept hu, hup⟩
    · exact ⟨_, segment?_append_new hid, rfl⟩

/-- Only the slot of the new segment has one more in it, and there was room for one. -/
theorem Sound.append_limits (hm : d.schema.Resolved) (h : d.Sound) (hs : d.segment? id = some s) {slot : ChildSlot}
    (hslot : slot ∈ s.type.children) (hn : type.name = slot.segmentType)
    (hroom : (d.childrenNamed s slot.segmentType).length < slot.maxOccurrence) {p : Nat} {t : Segment}
    (hp : (d.append id s type).segment? p = some t) {sl : ChildSlot} (hsl : sl ∈ t.type.children) :
    ((d.append id s type).childrenNamed t sl.segmentType).length ≤ sl.maxOccurrence := by
  have hid := segment?_lt hs
  rcases segment?_append_cases hid hp with ⟨rfl, rfl⟩ | ⟨o, ho, rfl⟩
  · exact Nat.zero_le _
  have hlt : ∀ c ∈ o.children, c < d.segmentCount := fun c hc => h.child_lt ho hc
  have hle := h.limits p o ho sl hsl
  by_cases hp : p = id
  · subst hp
    rw [hs, Option.some_inj] at ho
    subst ho
    rw [if_pos rfl, childrenNamed_append_self hid hlt, List.length_append]
    split
    · rename_i he
      obtain rfl : sl = slot :=
        List.inj_on_of_nodup_map (hm.children s.type (h.types p s hs)) hsl hslot (he.symm.trans hn)
      exact hroom
    · exact hle
  · simp only [if_neg hp]
    rw [childrenNamed_append_old hlt]
    exact hle

theorem Sound.append (hm : d.schema.Resolved) (h : d.Sound) (hs : d.segment? id = some s) {slot : ChildSlot}
    (hslot : slot ∈ s.type.children) (hn : type.name = slot.segmentType) (hk : slot.key = type.key)
    (ht : type ∈ d.schema.segments) (hroom : (d.childrenNamed s slot.segmentType).length < slot.maxOccurrence) :
    (d.append id s type).Sound := by
  have hid := segment?_lt hs
  refine ⟨?_, fun i t hi hne => h.append_above hm hs hslot hn hk ht hi hne, fun p t hp c hc => h.append_listed hs hp hc,
    fun p t hp sl hsl => h.append_limits hm hs hslot hn hroom hp hsl, fun i t hi => ?_, fun i t hi => ?_⟩
  · obtain ⟨r, hr, hrt, hrp, hrl, hrf⟩ := h.root
    exact ⟨_, segment?_append_kept hr, hrt, hrp, hrl, hrf⟩
  · rcases segment?_append_cases hid hi with ⟨rfl, rfl⟩ | ⟨o, ho, rfl⟩
    · exact List.mem_cons_of_mem _ ht
    · exact h.types i o ho
  · rcases segment?_append_cases hid hi with ⟨rfl, rfl⟩ | ⟨o, ho, rfl⟩
    · exact Segment.blank_filled _ _ _
    · exact h.filled i o ho

end Append

end Document

end DocWire
