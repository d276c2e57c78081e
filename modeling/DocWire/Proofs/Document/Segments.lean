/-
  DocWire.Proofs.Document.Segments — what the operations on a document do to its segments.

  Two operations change segments: the fields of one are replaced, and one is appended under another. All
  else is looking up. So every operation that succeeds is one of the two, and every look-up afterwards is
  told by what was there before.
-/

import DocWire.Document.Basic
import DocWire.Proofs.Outcome
import DocWire.Proofs.Lookup

namespace DocWire

namespace Segment

variable {s : Segment}

theorem resolve_eq_ok {own : Option String} {name : String} {i : Nat} {decl : FieldDecl}
    (h : s.resolve own name = .ok (i, decl)) : s.type.fields[i]? = some decl := by
  unfold resolve at h
  split at h
  · cases h
  · split at h
    · cases h
    · rename_i hd
      cases h
      exact hd

/-- A declared field is found under its own name. -/
theorem resolve_declared {own : Option String} (hn : (s.type.fields.map (·.name)).Nodup) {i : Nat}
    {decl : FieldDecl} (hi : s.type.fields[i]? = some decl) : s.resolve own decl.name = .ok (i, decl) := by
  have hidx : s.type.fieldIndex? own decl.name = some i :=
    Lookup.declaredIndex?_declared hn (by rw [List.getElem?_map, hi]; rfl)
  simp only [resolve, hidx, hi]

theorem mem_entries {decl : FieldDecl} {v : Value} :
    (decl, v) ∈ s.entries ↔ ∃ i : Nat, s.type.fields[i]? = some decl ∧ s.fields[i]? = some (some v) := by
  simp only [entries, List.mem_filterMap, Option.map_eq_some_iff, Prod.mk.injEq]
  constructor
  · rintro ⟨⟨decl', value?⟩, hm, v', rfl, rfl, rfl⟩
    obtain ⟨i, hi⟩ := List.getElem?_of_mem hm
    obtain ⟨hd, hv⟩ := List.getElem?_zip_eq_some.mp hi
    exact ⟨i, hd, hv⟩
  · rintro ⟨i, hd, hv⟩
    exact ⟨(decl, some v), List.mem_of_getElem? (List.getElem?_zip_eq_some.mpr ⟨hd, hv⟩), v, rfl, rfl, rfl⟩

/-- Behind a change of one field: what is set there, and what was set before. -/
theorem mem_entries_set {i : Nat} {value? : Option Value} {decl : FieldDecl} {v : Value}
    (h : (decl, v) ∈ ({ s with fields := s.fields.set i value? } : Segment).entries) :
    (s.type.fields[i]? = some decl ∧ value? = some v) ∨ (decl, v) ∈ s.entries := by
  obtain ⟨j, hd, hj⟩ := mem_entries.mp h
  simp only [List.getElem?_set] at hd hj
  split at hj
  · rename_i he
    subst he
    split at hj
    · exact .inl ⟨hd, Option.some_inj.mp hj⟩
    · cases hj
  · exact .inr (mem_entries.mpr ⟨j, hd, hj⟩)

theorem entries_blank (type : SegmentType) (parent : Option Nat) (level : Nat) : (blank type parent level).entries = [] := by
  refine List.eq_nil_iff_forall_not_mem.mpr ?_
  rintro ⟨decl, v⟩ h
  obtain ⟨i, -, hv⟩ := mem_entries.mp h
  have hnone := List.mem_of_getElem? hv
  cases (List.mem_replicate.mp hnone).2

/-- The declarations of what is set keep their order, and none comes twice. -/
theorem entries_sublist : (s.entries.map Prod.fst).Sublist s.type.fields := by
  unfold entries
  induction s.type.fields generalizing s with
  | nil => exact List.Sublist.slnil
  | cons decl decls ih =>
    cases hf : s.fields with
    | nil => exact List.nil_sublist _
    | cons value? values =>
      have ih := ih (s := { s with fields := values })
      cases value? with
      | none => exact ih.cons decl
      | some v => exact ih.cons_cons decl

theorem entries_nodup (h : (s.type.fields.map (·.name)).Nodup) : (s.entries.map (·.1.name)).Nodup := by
  have hnames := (s.entries_sublist.map FieldDecl.name).nodup h
  rwa [List.map_map] at hnames

theorem length_entries (h : s.fields.length = s.type.fields.length) : s.entries.length = s.fieldCount := by
  unfold entries fieldCount
  generalize s.fields = values at h
  generalize s.type.fields = decls at h
  induction values generalizing decls with
  | nil => simp
  | cons value? values ih =>
    cases decls with
    | nil => cases h
    | cons decl decls =>
      have ih := ih decls (Nat.succ.inj h)
      cases value? with
      | none => exact ih
      | some v => exact congrArg Nat.succ ih

end Segment

namespace Document

variable {d d' : Document}

theorem segment?_lt {i : Nat} {s : Segment} (h : d.segment? i = some s) : i < d.segmentCount :=
  (Array.getElem?_eq_some_iff.mp h).1

theorem exists_segment {i : Nat} (h : i < d.segmentCount) : ∃ s, d.segment? i = some s :=
  ⟨_, Array.getElem?_eq_getElem h⟩

theorem segment?_new {m : MessageType} {creation : Stamp} {i : Nat} {s : Segment}
    (h : (new m creation).segment? i = some s) : i = rootId ∧ s = .blank m.root none 0 := by
  simp only [segment?, new, Array.getElem?_eq_some_iff, List.size_toArray, List.length_singleton] at h
  obtain ⟨hi, rfl⟩ := h
  obtain rfl : i = 0 := by omega
  exact ⟨rfl, rfl⟩

@[simp] theorem segmentCount_putFields {id : Nat} {fields : List (Option Value)} :
    (d.putFields id fields).segmentCount = d.segmentCount := by
  simp [putFields, segmentCount]

@[simp] theorem segmentCount_append {id : Nat} {parent : Segment} {type : SegmentType} :
    (d.append id parent type).segmentCount = d.segmentCount + 1 := by
  simp [append, segmentCount]

theorem segment?_putFields {id i : Nat} {fields : List (Option Value)} :
    (d.putFields id fields).segment? i =
      (d.segment? i).map fun s => { s with fields := if i = id then fields else s.fields } := by
  simp only [putFields, segment?, Array.getElem?_modify]
  by_cases h : id = i
  · simp [h]
  · simp [h, Ne.symm h]

theorem segment?_append_new {id : Nat} {parent : Segment} {type : SegmentType} (hid : id < d.segmentCount) :
    (d.append id parent type).segment? d.segmentCount = some (.blank type (some id) (parent.level + 1)) := by
  have hne : id ≠ d.segments.size := Nat.ne_of_lt hid
  simp only [append, segment?, segmentCount, Array.getElem?_modify, Array.getElem?_push, hne, if_false, if_true]

theorem segment?_append_old {id i : Nat} {parent : Segment} {type : SegmentType} (hi : i < d.segmentCount) :
    (d.append id parent type).segment? i =
      (d.segment? i).map fun s =>
        { s with children := if i = id then s.children ++ [d.segmentCount] else s.children } := by
  have hne : i ≠ d.segments.size := Nat.ne_of_lt hi
  simp only [append, segment?, segmentCount, Array.getElem?_modify, Array.getElem?_push, hne, if_false]
  by_cases h : id = i
  · simp [h]
  · simp [h, Ne.symm h]

theorem segment?_append_kept {id i : Nat} {parent s : Segment} {type : SegmentType} (hs : d.segment? i = some s) :
    (d.append id parent type).segment? i =
      some { s with children := if i = id then s.children ++ [d.segmentCount] else s.children } := by
  rw [segment?_append_old (segment?_lt hs), hs, Option.map_some]

/-- What is found behind an appended segment: the new one, or one that was there before. -/
theorem segment?_append_cases {id i : Nat} {parent s : Segment} {type : SegmentType} (hid : id < d.segmentCount)
    (h : (d.append id parent type).segment? i = some s) :
    (i = d.segmentCount ∧ s = .blank type (some id) (parent.level + 1)) ∨
    (∃ old, d.segment? i = some old ∧
      s = { old with children := if i = id then old.children ++ [d.segmentCount] else old.children }) := by
  have hlt := segment?_lt h
  rw [segmentCount_append] at hlt
  by_cases hi : i = d.segmentCount
  · subst hi
    rw [segment?_append_new hid, Option.some_inj] at h
    exact .inl ⟨rfl, h.symm⟩
  · rw [segment?_append_old (by omega)] at h
    obtain ⟨old, hold, he⟩ := Option.map_eq_some_iff.mp h
    exact .inr ⟨old, hold, he.symm⟩

@[simp] theorem typeName?_putFields {id i : Nat} {fields : List (Option Value)} :
    (d.putFields id fields).typeName? i = d.typeName? i := by
  simp only [typeName?, segment?_putFields, Option.map_map]
  rfl

theorem typeName?_append_new {id : Nat} {parent : Segment} {type : SegmentType} (hid : id < d.segmentCount) :
    (d.append id parent type).typeName? d.segmentCount = some type.name := by
  simp only [typeName?, segment?_append_new hid, Option.map_some]
  rfl

theorem typeName?_append_old {id i : Nat} {parent : Segment} {type : SegmentType} (hi : i < d.segmentCount) :
    (d.append id parent type).typeName? i = d.typeName? i := by
  simp only [typeName?, segment?_append_old hi, Option.map_map]
  rfl

@[simp] theorem childrenNamed_putFields {id : Nat} {fields : List (Option Value)} {s : Segment} {name : String} :
    (d.putFields id fields).childrenNamed s name = d.childrenNamed s name := by
  simp only [childrenNamed, typeName?_putFields]

theorem childrenNamed_append_old {id : Nat} {parent s : Segment} {type : SegmentType} {name : String}
    (hs : ∀ c ∈ s.children, c < d.segmentCount) :
    (d.append id parent type).childrenNamed s name = d.childrenNamed s name := by
  refine List.filter_congr fun c hc => ?_
  rw [typeName?_append_old (hs c hc)]

/-- The segment that was appended counts among the children of its type. -/
theorem childrenNamed_append_self {id : Nat} {parent s : Segment} {type : SegmentType} {name : String}
    (hid : id < d.segmentCount) (hs : ∀ c ∈ s.children, c < d.segmentCount) :
    (d.append id parent type).childrenNamed { s with children := s.children ++ [d.segmentCount] } name =
      d.childrenNamed s name ++ if type.name = name then [d.segmentCount] else [] := by
  have hold : (d.append id parent type).childrenNamed s name = d.childrenNamed s name := childrenNamed_append_old hs
  rw [← hold]
  simp only [childrenNamed, List.filter_append, List.filter_cons, List.filter_nil, typeName?_append_new hid]
  by_cases he : type.name = name
  · simp [he]
  · simp [he]

/-! ## What an operation was, when it succeeded -/

theorem changeField_resolved {id : Nat} {name : String} {change : FieldDecl → Except ModelError (Option Value)}
    (h : d.changeField id name change = .ok d') :
    ∃ s i decl value?, d.segment? id = some s ∧ s.resolve d.schema.ns name = .ok (i, decl) ∧ change decl = .ok value? ∧
      d' = d.putFields id (s.fields.set i value?) := by
  unfold changeField at h
  split at h
  · cases h
  rename_i s hs
  split at h
  · cases h
  rename_i i decl hr
  obtain ⟨value?, hv, rfl⟩ := Outcome.map_eq_ok.mp h
  exact ⟨s, i, decl, value?, hs, hr, hv, rfl⟩

theorem changeField_eq_ok {id : Nat} {name : String} {change : FieldDecl → Except ModelError (Option Value)}
    (h : d.changeField id name change = .ok d') :
    ∃ s i decl value?, d.segment? id = some s ∧ s.type.fields[i]? = some decl ∧ change decl = .ok value? ∧
      d' = d.putFields id (s.fields.set i value?) := by
  obtain ⟨s, i, decl, value?, hs, hr, hv, rfl⟩ := changeField_resolved h
  exact ⟨s, i, decl, value?, hs, Segment.resolve_eq_ok hr, hv, rfl⟩

theorem addChild_eq_ok {id c : Nat} {name : String} (h : d.addChild id name = .ok (d', c)) :
    ∃ s slot type, d.segment? id = some s ∧ d.schema.childOf? s.type name = some (slot, type) ∧
      (d.childrenNamed s slot.segmentType).length < slot.maxOccurrence ∧
      d' = d.append id s type ∧ c = d.segmentCount := by
  unfold addChild at h
  split at h
  · cases h
  rename_i s hs
  split at h
  · cases h
  rename_i slot type hc
  split at h
  · rename_i hlt
    cases h
    exact ⟨s, slot, type, hs, hc, hlt, rfl, rfl⟩
  · cases h

end Document

end DocWire
