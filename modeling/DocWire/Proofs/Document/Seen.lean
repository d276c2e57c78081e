/-
  DocWire.Proofs.Document.Seen — documents whose values are looked at through a view.

  A view says, for each declared field, what is seen of its values; it may show nothing. Through a view a document keeps
  its message type, its header, its creation stamp and the tree of its segments, and every field shows what is seen of its
  value. Through the view of everything that is the document itself (`seen_whole`), through the view of nothing it is its
  outline, and a view of all fields but some tells what a document is apart from those.

  A field is put in the place that its name means, and a child is added where there is room for one of its type; neither
  asks for a value that is there. So both can be done behind the view as well as before it (`seen_putField`,
  `seen_addChild`). Of two fields that are put in one place the later stays (`putField_again`), and in two places either
  may come first (`putField_apart`).
-/

import DocWire.Document.Batch
import DocWire.Proofs.Document.Segments

namespace DocWire

/-- What is seen of the values of a declared field, by what declares it and its place there. -/
abbrev View (σ : Type) := σ → Nat → Value → Option Value

namespace View

variable {σ : Type}

def whole : View σ := fun _ _ => some

def hidden : View σ := fun _ _ _ => none

end View

namespace Segment

def seen (view : View SegmentType) (s : Segment) : Segment :=
  { s with fields := s.fields.mapIdx fun i value? => value?.bind (view s.type i) }

variable {view : View SegmentType}

theorem seen_whole (s : Segment) : s.seen .whole = s := by
  have hfields : s.fields.mapIdx (fun _ value? => value?.bind some) = s.fields := by
    refine List.ext_getElem? fun i => ?_
    rw [List.getElem?_mapIdx, Option.map_congr fun value? _ => Option.bind_fun_some value?, Option.map_id']
  show { s with fields := s.fields.mapIdx fun _ value? => value?.bind some } = s
  rw [hfields]

theorem seen_blank (type : SegmentType) (parent : Option Nat) (level : Nat) :
    (blank type parent level).seen view = blank type parent level := by
  have hfields : ∀ n : Nat, (List.replicate n none).mapIdx (fun i value? => Option.bind value? (view type i)) =
      List.replicate n none := by
    intro n
    refine List.ext_getElem? fun i => ?_
    rw [List.getElem?_mapIdx, List.getElem?_replicate]
    split <;> rfl
  simp only [seen, blank, hfields]

end Segment

namespace Document

variable {view : View SegmentType} {d : Document} {id : Nat}

def seen (view : View SegmentType) (d : Document) : Document := { d with segments := d.segments.map (Segment.seen view) }

/-- Documents are told by what they hold beside their segments, and by their segments. -/
theorem eq_of_segments {d d' : Document} (hschema : d.schema = d'.schema) (hheader : d.header = d'.header)
    (hcreation : d.creation = d'.creation) (hall : ∀ i, d.segment? i = d'.segment? i) : d = d' := by
  obtain ⟨schema, header, creation, segments⟩ := d
  obtain ⟨schema', header', creation', segments'⟩ := d'
  have hsegments : segments = segments' := Array.ext_getElem? hall
  subst hschema hheader hcreation hsegments
  rfl

theorem segment?_seen (d : Document) (i : Nat) : (d.seen view).segment? i = (d.segment? i).map (Segment.seen view) :=
  Array.getElem?_map

theorem segmentCount_seen (d : Document) : (d.seen view).segmentCount = d.segmentCount := Array.size_map

theorem typeName?_seen (d : Document) (i : Nat) : (d.seen view).typeName? i = d.typeName? i := by
  rw [typeName?, segment?_seen, Option.map_map]
  rfl

theorem childrenNamed_seen (d : Document) (s : Segment) (name : String) :
    (d.seen view).childrenNamed (s.seen view) name = d.childrenNamed s name :=
  List.filter_congr fun c _ => by rw [typeName?_seen]

theorem seen_whole (d : Document) : d.seen .whole = d := by
  refine eq_of_segments rfl rfl rfl fun i => ?_
  rw [segment?_seen, Option.map_congr fun s _ => s.seen_whole, Option.map_id']

/-! ## Fields -/

/-- The document with one field changed, given by its segment and by its place there. -/
def putField (d : Document) (id i : Nat) (value? : Option Value) : Document :=
  { d with segments := d.segments.modify id fun s => { s with fields := s.fields.set i value? } }

theorem segment?_putField (d : Document) (id i j : Nat) (value? : Option Value) :
    (d.putField id i value?).segment? j =
      (d.segment? j).map fun s => { s with fields := if j = id then s.fields.set i value? else s.fields } := by
  simp only [putField, segment?, Array.getElem?_modify]
  by_cases h : id = j
  · simp [h]
  · simp [h, Ne.symm h]

theorem putFields_eq_putField {s : Segment} (hs : d.segment? id = some s) (i : Nat) (value? : Option Value) :
    d.putFields id (s.fields.set i value?) = d.putField id i value? := by
  refine eq_of_segments rfl rfl rfl fun j => ?_
  rw [segment?_putFields, segment?_putField]
  by_cases hj : j = id
  · subst hj
    simp only [hs, Option.map_some]
  · simp only [hj, if_false]

theorem seen_putField {s : Segment} (hs : d.segment? id = some s) (i : Nat) (value? : Option Value) :
    (d.putField id i value?).seen view = (d.seen view).putField id i (value?.bind (view s.type i)) := by
  refine eq_of_segments rfl rfl rfl fun j => ?_
  rw [segment?_seen, segment?_putField, segment?_putField, segment?_seen, Option.map_map, Option.map_map]
  refine Option.map_congr fun t ht => ?_
  simp only [Function.comp_apply, Segment.seen]
  split
  · rename_i hj
    rw [hj, hs, Option.some_inj] at ht
    rw [ht, List.mapIdx_set]
  · rfl

theorem putField_again (d : Document) (id i : Nat) (value? value?' : Option Value) :
    (d.putField id i value?).putField id i value?' = d.putField id i value?' := by
  refine eq_of_segments rfl rfl rfl fun j => ?_
  rw [segment?_putField, segment?_putField, segment?_putField, Option.map_map]
  refine Option.map_congr fun s _ => ?_
  simp only [Function.comp_apply]
  split
  · rw [List.set_set]
  · rfl

theorem putField_apart (d : Document) (id : Nat) {i j : Nat} (hne : i ≠ j) (value? value?' : Option Value) :
    (d.putField id i value?).putField id j value?' = (d.putField id j value?').putField id i value? := by
  refine eq_of_segments rfl rfl rfl fun k => ?_
  rw [segment?_putField, segment?_putField, segment?_putField, segment?_putField, Option.map_map, Option.map_map]
  refine Option.map_congr fun s _ => ?_
  simp only [Function.comp_apply]
  split
  · rw [List.set_comm _ _ hne]
  · rfl

/-! ## Children -/

theorem seen_append {parent : Segment} {type : SegmentType} (hid : id < d.segmentCount) :
    (d.append id parent type).seen view = (d.seen view).append id (parent.seen view) type := by
  have hid' : id < (d.seen view).segmentCount := by rwa [segmentCount_seen]
  refine eq_of_segments rfl rfl rfl fun i => ?_
  rw [segment?_seen]
  by_cases hi : i < d.segmentCount
  · have hi' : i < (d.seen view).segmentCount := by rwa [segmentCount_seen]
    rw [segment?_append_old hi, segment?_append_old hi', segment?_seen, segmentCount_seen, Option.map_map, Option.map_map]
    rfl
  by_cases he : i = d.segmentCount
  · have hnew : ((d.seen view).append id (parent.seen view) type).segment? d.segmentCount =
        some (.blank type (some id) ((parent.seen view).level + 1)) :=
      (congrArg (Document.segment? _) (segmentCount_seen d).symm).trans (segment?_append_new hid')
    rw [he, segment?_append_new hid, hnew, Option.map_some, Segment.seen_blank]
    rfl
  · have hnone : ∀ d' : Document, d'.segmentCount = d.segmentCount + 1 → d'.segment? i = none := by
      intro d' hcount
      refine Array.getElem?_eq_none ?_
      show d'.segmentCount ≤ i
      omega
    rw [hnone _ segmentCount_append, hnone _ (by rw [segmentCount_append, segmentCount_seen])]
    rfl

theorem seen_addChild (name : String) :
    (d.addChild id name).map (fun p => (p.1.seen view, p.2)) = (d.seen view).addChild id name := by
  unfold addChild
  rw [segment?_seen]
  cases hs : d.segment? id with
  | none => rfl
  | some s =>
    have hchild : (d.seen view).schema.childOf? (s.seen view).type name = d.schema.childOf? s.type name := rfl
    simp only [Option.map_some, hchild]
    rcases d.schema.childOf? s.type name with _ | ⟨slot, type⟩
    · rfl
    · simp only [childrenNamed_seen]
      split
      · rw [Outcome.map_ok, seen_append (segment?_lt hs)]
        show _ = Except.ok (_, (d.seen view).segmentCount)
        rw [segmentCount_seen]
        rfl
      · rfl

end Document

namespace Batch

def seen (view : View SegmentType) (b : Batch) : Batch := { b with documents := b.documents.map (Document.seen view) }

variable {view : View SegmentType}

theorem seen_whole (b : Batch) : b.seen .whole = b := by
  have hdocuments : b.documents.map (Document.seen .whole) = b.documents := by
    conv_rhs => rw [← List.map_id b.documents]
    exact List.map_congr_left fun d _ => d.seen_whole
  rw [seen, hdocuments]

theorem seen_push (b : Batch) (d : Document) : (b.push d).map (seen view) = (b.seen view).push (d.seen view) := by
  unfold push
  show _ = if d.key = b.key then _ else _
  split
  · rw [Outcome.map_ok, seen, List.map_append, List.map_singleton]
    rfl
  · rfl

end Batch

end DocWire
