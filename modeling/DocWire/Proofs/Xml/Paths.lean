/-
  DocWire.Proofs.Xml.Paths — the paths of segments, as texts and in a document.

  A path is made from that of the segment above: behind it come a fixed part, the segment type in its markup form, a dot,
  and the number among the siblings of the type. The markup form has no slash, and the digits of a number have neither a
  slash nor a dot. So a path is cut again at its last slash, at the last dot behind it and at the slash before it, and
  tells what it was made of, where the type is read back from its markup form (`readPath?_segmentPath`). In the path of a
  root there is no dot behind the last slash.

  From there it is an induction on the way down to a segment (`PathOf`): no two segments of a document have one path
  (`PathOf.eq_segment`), segments that have one are in documents that have one (`PathOf.eq_document`), and in two
  documents of the same paths the segments of one path have the same children, type by type (`children_correspond`).
-/

import DocWire.Proofs.Document.Sound
import DocWire.Proofs.Name
import DocWire.Proofs.Number.Digits
import DocWire.Xml.Encode

namespace DocWire.Xml

/-! ## Paths as texts -/

theorem childPath_eq (parent feature : String) : childPath parent feature = parent ++ "/@" ++ feature := by
  unfold childPath
  split
  · rename_i hroot
    rw [beq_iff_eq.mp hroot]
    rfl
  · rfl

/-- The path of a segment below another: of a type, and behind `rank` others of the type. -/
def segmentPath (above type : String) (rank : Nat) : String :=
  childPath above "segmentChildren" ++ "/@" ++ Name.escape type ++ "." ++ toString rank

/-- What stands before the last `sep` and what stands behind it. -/
def cutLast? (sep : Char) (s : List Char) : Option (List Char × List Char) :=
  match s.reverse.dropWhile (· != sep) with
  | [] => none
  | _ :: front => some (front.reverse, (s.reverse.takeWhile (· != sep)).reverse)

theorem cutLast?_append {sep : Char} {t : List Char} (h : sep ∉ t) (s : List Char) :
    cutLast? sep (s ++ sep :: t) = some (s, t) := by
  have hpass : ∀ c ∈ t.reverse, (c != sep) = true := by
    intro c hc
    rw [bne_iff_ne]
    rintro rfl
    exact h (List.mem_reverse.mp hc)
  have hreverse : (s ++ sep :: t).reverse = t.reverse ++ sep :: s.reverse := by simp
  simp [cutLast?, hreverse, List.dropWhile_append_of_pos hpass, List.takeWhile_append_of_pos hpass]

theorem cutLast?_none {sep : Char} {s : List Char} (h : sep ∉ s) : cutLast? sep s = none := by
  have hall : s.reverse.dropWhile (· != sep) = [] := by
    rw [List.dropWhile_eq_nil_iff]
    intro c hc
    rw [bne_iff_ne]
    rintro rfl
    exact h (List.mem_reverse.mp hc)
  simp only [cutLast?, hall]

/-- What a path tells of a segment: the path of the segment above it, its type, and how many of the type stand before
it. The path of a root tells nothing. -/
def readPath? (path : String) : Option (String × String × Nat) := do
  let (front, own) ← cutLast? '/' path.toList
  let (type, rank) ← cutLast? '.' own
  let (above, feature) ← cutLast? '/' front
  if String.ofList feature = "@segmentChildren" then
    some (String.ofList above, Name.unescape (String.ofList type.tail), Number.digitsValue rank)
  else none

theorem toList_toString (n : Nat) : (toString n).toList = Number.digits n := by
  simp [Number.digits]

theorem not_mem_digits {c : Char} (h : Number.isDigit c = false) (n : Nat) : c ∉ Number.digits n := by
  intro hc
  have := Number.digits_digits n c hc
  rw [h] at this
  cases this

/-- The last slash of a path stands before the type, and the one before it before the feature. -/
theorem segmentPath_chars (above type : String) (rank : Nat) : (segmentPath above type rank).toList =
    (above.toList ++ '/' :: "@segmentChildren".toList) ++
      '/' :: ('@' :: (Name.escape type).toList ++ '.' :: Number.digits rank) := by
  have hfeature : "/@".toList = ['/', '@'] := by decide
  have hdot : ".".toList = ['.'] := by decide
  have hchildren : "@segmentChildren".toList = '@' :: "segmentChildren".toList := by decide
  simp [segmentPath, childPath_eq, Number.digits, hfeature, hdot, hchildren]

theorem readPath?_segmentPath {type : String} (h : Name.Markless type) (above : String) (rank : Nat) :
    readPath? (segmentPath above type rank) = some (above, type, rank) := by
  have hslash : '/' ∉ '@' :: (Name.escape type).toList ++ '.' :: Number.digits rank := by
    have hrank : '/' ∉ Number.digits rank := not_mem_digits (by decide) rank
    simp [Name.slash_not_mem_escape, hrank]
  have hdot : '.' ∉ Number.digits rank := not_mem_digits (by decide) rank
  have hfeature : '/' ∉ "@segmentChildren".toList := by decide
  simp only [readPath?, segmentPath_chars, cutLast?_append hslash, cutLast?_append hdot, cutLast?_append hfeature,
    Option.bind_eq_bind, Option.bind_some, String.ofList_toList, if_true, List.tail_cons, Name.unescape_escape h,
    Number.digitsValue_digits]

theorem readPath?_root (docPath : String) : readPath? (childPath docPath "rootSegment") = none := by
  have hchars : (childPath docPath "rootSegment").toList = docPath.toList ++ '/' :: '@' :: "rootSegment".toList := by
    have hfeature : "/@".toList = ['/', '@'] := by decide
    simp [childPath_eq, hfeature]
  have hslash : '/' ∉ '@' :: "rootSegment".toList := by decide
  have hdot : '.' ∉ '@' :: "rootSegment".toList := by decide
  simp only [readPath?, hchars, cutLast?_append hslash, cutLast?_none hdot, Option.bind_eq_bind, Option.bind_some,
    Option.bind_none]

theorem childPath_inj {a b feature : String} (h : childPath a feature = childPath b feature) : a = b := by
  rw [childPath_eq, childPath_eq, ← String.toList_inj] at h
  simpa [String.toList_inj] using h

/-! ## The paths of a document -/

/-- The path of a segment: that of the root, or that of the segment above with the own type and number. -/
inductive PathOf (d : Document) (docPath : String) : Nat → String → Prop
  | root : PathOf d docPath Document.rootId (childPath docPath "rootSegment")
  | child {p c : Nat} {above : String} {parent s : Segment} : PathOf d docPath p above → d.segment? p = some parent →
      c ∈ parent.children → d.segment? c = some s →
      PathOf d docPath c (segmentPath above s.type.name ((d.childrenNamed parent s.type.name).idxOf c))

/-- The segments of the document are of types whose names are read back. -/
def PlainTypes (d : Document) : Prop := ∀ i s, d.segment? i = some s → Name.Markless s.type.name

section

variable {d : Document} {docPath : String} {i j : Nat} {path : String}

/-- What a path tells of its segment is so. -/
theorem PathOf.read (hnames : PlainTypes d) (h : PathOf d docPath i path) :
    (i = Document.rootId ∧ path = childPath docPath "rootSegment" ∧ readPath? path = none) ∨
    ∃ p above parent s, PathOf d docPath p above ∧ d.segment? p = some parent ∧ i ∈ parent.children ∧
      d.segment? i = some s ∧ readPath? path = some (above, s.type.name, (d.childrenNamed parent s.type.name).idxOf i) := by
  cases h with
  | root => exact .inl ⟨rfl, rfl, readPath?_root docPath⟩
  | child hp hparent hc hs => exact .inr ⟨_, _, _, _, hp, hparent, hc, hs, readPath?_segmentPath (hnames _ _ hs) _ _⟩

theorem mem_childrenNamed {parent s : Segment} (hc : i ∈ parent.children) (hs : d.segment? i = some s) :
    i ∈ d.childrenNamed parent s.type.name := by
  rw [Document.childrenNamed, List.mem_filter]
  exact ⟨hc, by simp [Document.typeName?, hs]⟩

/-- A path of a root is that of the root. -/
theorem PathOf.of_root (hnames : PlainTypes d) {other : String} (h : PathOf d docPath i (childPath other "rootSegment")) :
    i = Document.rootId ∧ other = docPath := by
  rcases h.read hnames with ⟨hi, hroot, -⟩ | ⟨p, above, parent, s, -, -, -, -, hread⟩
  · exact ⟨hi, childPath_inj hroot⟩
  · rw [readPath?_root] at hread
    cases hread

/-- A path below another is that of a child, of the type and with the number that the path was made with. -/
theorem PathOf.of_segment (hnames : PlainTypes d) {above name : String} {rank : Nat} (hname : Name.Markless name)
    (h : PathOf d docPath i (segmentPath above name rank)) : ∃ p parent s, PathOf d docPath p above ∧
      d.segment? p = some parent ∧ i ∈ parent.children ∧ d.segment? i = some s ∧ s.type.name = name ∧
      (d.childrenNamed parent name).idxOf i = rank := by
  rcases h.read hnames with ⟨-, -, hread⟩ | ⟨p, _, parent, s, hp, hparent, hi, hs, hread⟩
  · rw [readPath?_segmentPath hname] at hread
    cases hread
  · rw [readPath?_segmentPath hname] at hread
    simp only [Option.some.injEq, Prod.mk.injEq] at hread
    obtain ⟨rfl, rfl, rfl⟩ := hread
    exact ⟨p, parent, s, hp, hparent, hi, hs, rfl, rfl⟩

/-- No two segments have one path. -/
theorem PathOf.eq_segment (hnames : PlainTypes d) (hi : PathOf d docPath i path) : ∀ {j}, PathOf d docPath j path → i = j := by
  induction hi with
  | root =>
    intro j hj
    exact (hj.of_root hnames).1.symm
  | @child p c above parent s hp hparent hc hs ih =>
    intro j hj
    obtain ⟨q, parent', t, hq, hparent', -, -, -, hrank⟩ := hj.of_segment hnames (hnames c s hs)
    obtain rfl := ih hq
    rw [hparent, Option.some_inj] at hparent'
    subst hparent'
    exact (List.idxOf_inj (mem_childrenNamed hc hs)).mp hrank.symm

/-- Segments of one path are in documents of one path. -/
theorem PathOf.eq_document (hnames : PlainTypes d) (hi : PathOf d docPath i path) {d' : Document} {docPath' : String}
    (hnames' : PlainTypes d') : ∀ {j}, PathOf d' docPath' j path → docPath = docPath' := by
  induction hi with
  | root =>
    intro j hj
    exact (hj.of_root hnames').2
  | @child p c above parent s hp hparent hc hs ih =>
    intro j hj
    obtain ⟨q, -, -, hq, -⟩ := hj.of_segment hnames' (hnames c s hs)
    exact ih hq

theorem exists_path (h : d.Sound) : ∀ n i, i ≤ n → i < d.segmentCount → ∃ path, PathOf d docPath i path := by
  intro n
  induction n with
  | zero =>
    intro i hi _
    obtain rfl : i = Document.rootId := Nat.le_zero.mp hi
    exact ⟨_, .root⟩
  | succ n ih =>
    intro i hi hlt
    by_cases hroot : i = Document.rootId
    · exact hroot ▸ ⟨_, .root⟩
    obtain ⟨s, hs⟩ := Document.exists_segment hlt
    obtain ⟨p, parent, hp, -, hparent, hcount, -⟩ := h.above i s hs hroot
    obtain ⟨above, habove⟩ := ih p (by omega) (Document.segment?_lt hparent)
    exact ⟨_, .child habove hparent (List.count_pos_iff.mp (by omega)) hs⟩

/-- A segment has one path. -/
theorem PathOf.unique (h : d.Sound) (hi : PathOf d docPath i path) : ∀ {other}, PathOf d docPath i other → path = other := by
  induction hi with
  | root =>
    intro other hother
    generalize hroot : Document.rootId = r at hother
    cases hother with
    | root => rfl
    | child hp hparent hc hs =>
      have := h.lt_child hparent hc
      rw [← hroot] at this
      exact absurd this (Nat.not_lt_zero _)
  | @child p c above parent s hp hparent hc hs ih =>
    intro other hother
    cases hother with
    | root =>
      have := h.lt_child hparent hc
      exact absurd this (Nat.not_lt_zero _)
    | @child q _ above' parent' t hq hparent' hc' ht =>
      obtain ⟨u, hu, hup⟩ := h.listed p parent hparent c hc
      obtain ⟨v, hv, hvq⟩ := h.listed q parent' hparent' c hc'
      rw [hu, Option.some_inj] at hv
      rw [← hv, hup, Option.some_inj] at hvq
      subst hvq
      rw [hs, Option.some_inj] at ht
      rw [hparent, Option.some_inj] at hparent'
      rw [← ht, ← hparent', ih hq]

/-- The children of one type have the numbers from 0 on, in their order. -/
theorem paths_childrenNamed (h : d.Sound) {p : Nat} {parent : Segment} {above : String} (hp : PathOf d docPath p above)
    (hparent : d.segment? p = some parent) (name : String) :
    List.Forall₂ (PathOf d docPath) (d.childrenNamed parent name)
      ((List.range (d.childrenNamed parent name).length).map (segmentPath above name)) := by
  have hnodup : (d.childrenNamed parent name).Nodup := (h.children_nodup hparent).filter _
  refine List.forall₂_iff_get.mpr ⟨by rw [List.length_map, List.length_range], fun k hk _ => ?_⟩
  rw [List.get_eq_getElem, List.get_eq_getElem, List.getElem_map, List.getElem_range]
  obtain ⟨hc, htype⟩ := List.mem_filter.mp (List.getElem_mem hk)
  obtain ⟨s, hs, rfl⟩ := Option.map_eq_some_iff.mp (beq_iff_eq.mp htype)
  have hrank : (d.childrenNamed parent s.type.name).idxOf (d.childrenNamed parent s.type.name)[k] = k :=
    hnodup.idxOf_getElem k hk
  have hpath := PathOf.child hp hparent hc hs
  rw [hrank] at hpath
  exact hpath

/-- A number below a segment that is in a path is that of a child. -/
theorem PathOf.number_lt (hnames : PlainTypes d) {c k : Nat} {parent : Segment} {above name : String}
    (hc : PathOf d docPath c (segmentPath above name k)) (hname : Name.Markless name) (hp : PathOf d docPath i above)
    (hparent : d.segment? i = some parent) : k < (d.childrenNamed parent name).length := by
  obtain ⟨q, parent', s, hq, hparent', hc', hs, rfl, rfl⟩ := hc.of_segment hnames hname
  obtain rfl := hp.eq_segment hnames hq
  rw [hparent, Option.some_inj] at hparent'
  subst hparent'
  exact List.idxOf_lt_length_of_mem (mem_childrenNamed hc' hs)

variable {d' : Document}

/-- Where all paths of one document are paths of another, a segment has no fewer children of a type there. -/
theorem childrenNamed_length_le (h : d.Sound) (hnames : PlainTypes d) (hnames' : PlainTypes d')
    (hpaths : ∀ path, (∃ i, PathOf d docPath i path) → ∃ j, PathOf d' docPath j path) {s t : Segment}
    (hi : PathOf d docPath i path) (hs : d.segment? i = some s) (hj : PathOf d' docPath j path)
    (ht : d'.segment? j = some t) (name : String) :
    (d.childrenNamed s name).length ≤ (d'.childrenNamed t name).length := by
  by_contra hmore
  obtain ⟨hlength, hall⟩ := List.forall₂_iff_get.mp (paths_childrenNamed h hi hs name)
  have hc := hall (d'.childrenNamed t name).length (by omega) (by omega)
  rw [List.get_eq_getElem, List.get_eq_getElem, List.getElem_map, List.getElem_range] at hc
  obtain ⟨-, htype⟩ := List.mem_filter.mp (List.getElem_mem (by omega : (d'.childrenNamed t name).length < (d.childrenNamed s name).length))
  obtain ⟨u, hu, hname⟩ := Option.map_eq_some_iff.mp (beq_iff_eq.mp htype)
  obtain ⟨c', hc'⟩ := hpaths _ ⟨_, hc⟩
  exact Nat.lt_irrefl _ (hc'.number_lt hnames' (hname ▸ hnames _ u hu) hj ht)

/-- In two documents of the same paths, segments of one path have the same children under every type, path by path. -/
theorem children_correspond (h : d.Sound) (h' : d'.Sound) (hnames : PlainTypes d) (hnames' : PlainTypes d')
    (hpaths : ∀ path, (∃ i, PathOf d docPath i path) ↔ ∃ j, PathOf d' docPath j path) {s t : Segment}
    (hi : PathOf d docPath i path) (hs : d.segment? i = some s) (hj : PathOf d' docPath j path)
    (ht : d'.segment? j = some t) (name : String) :
    List.Forall₂ (fun c c' => ∃ below, PathOf d docPath c below ∧ PathOf d' docPath c' below)
      (d.childrenNamed s name) (d'.childrenNamed t name) := by
  have hle := childrenNamed_length_le h hnames hnames' (fun path => (hpaths path).mp) hi hs hj ht name
  have hge := childrenNamed_length_le h' hnames' hnames (fun path => (hpaths path).mpr) hj ht hi hs name
  have hown := paths_childrenNamed h hi hs name
  have hother := paths_childrenNamed h' hj ht name
  rw [← Nat.le_antisymm hle hge] at hother
  obtain ⟨hlength, hown⟩ := List.forall₂_iff_get.mp hown
  obtain ⟨hlength', hother⟩ := List.forall₂_iff_get.mp hother
  refine List.forall₂_iff_get.mpr ⟨Nat.le_antisymm hle hge, fun k hk hk' => ?_⟩
  exact ⟨_, hown k hk (hlength ▸ hk), hother k hk' (hlength' ▸ hk')⟩

end

end DocWire.Xml
