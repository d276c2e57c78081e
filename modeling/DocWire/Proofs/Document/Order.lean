/-
  DocWire.Proofs.Document.Order — the order in which the segments of a document are visited.

  A visit keeps a list of the segments that wait, and puts the children of each in front of it. In a sound document
  that is the pre-order of the tree (`Sound.order_eq`), and it has every segment once (`Sound.order_perm`).

  The invariant behind both is a count. In the pre-order of a tree of numbers, a number stands as often as it is at the
  top or is listed by one that stands there (`count_preorder`). A segment is listed once, by its parent, and the root by
  none; so the root stands there once, and every other segment as often as its parent, which is earlier.
-/

import DocWire.Proofs.Document.Rebuild

namespace DocWire.Document

variable {d : Document}

theorem childrenOf_eq {id : Nat} {s : Segment} (h : d.segment? id = some s) : d.childrenOf id = s.children := by
  rw [childrenOf, h, Option.map_some, Option.getD_some]

/-- What is listed is listed by a segment. -/
theorem exists_of_mem_childrenOf {id c : Nat} (h : c ∈ d.childrenOf id) : ∃ s, d.segment? id = some s ∧ c ∈ s.children := by
  cases hs : d.segment? id with
  | none =>
    rw [childrenOf, hs] at h
    cases h
  | some s => exact ⟨s, rfl, childrenOf_eq hs ▸ h⟩

theorem childrenOf_behind {id : Nat} (h : d.segmentCount ≤ id) : d.childrenOf id = [] := by
  refine List.eq_nil_iff_forall_not_mem.mpr fun c hc => ?_
  obtain ⟨s, hs, -⟩ := exists_of_mem_childrenOf hc
  have := segment?_lt hs
  omega

theorem Sound.lt_childrenOf (h : d.Sound) {id c : Nat} (hc : c ∈ d.childrenOf id) : id < c ∧ c < d.segmentCount := by
  obtain ⟨s, hs, hc⟩ := exists_of_mem_childrenOf hc
  exact ⟨h.lt_child hs hc, h.child_lt hs hc⟩

/-! ## Trees of numbers -/

/-- More room than there are segments behind a number changes nothing. -/
theorem Sound.treeBelow_room (h : d.Sound) : ∀ (room more id : Nat), d.segmentCount ≤ id + room →
    d.treeBelow (room + more) id = d.treeBelow room id
  | 0, 0, id, _ => rfl
  | 0, more + 1, id, hroom => by
    show d.treeBelow (0 + more + 1) id = d.treeBelow 0 id
    have hnone : d.childrenOf id = [] := childrenOf_behind hroom
    rw [treeBelow, treeBelow, hnone]
    rfl
  | room + 1, more, id, hroom => by
    rw [Nat.add_right_comm, treeBelow, treeBelow]
    congr 1
    refine List.map_congr_left fun c hc => h.treeBelow_room room more c ?_
    have := (h.lt_childrenOf hc).1
    omega

/-- The numbers below one that may have all the room there is. -/
def numbersBelow (d : Document) (id : Nat) : Tree Nat := d.treeBelow d.segmentCount id

theorem Sound.numbersBelow_eq (h : d.Sound) (id : Nat) :
    d.numbersBelow id = .node id ((d.childrenOf id).map d.numbersBelow) := by
  rw [numbersBelow, ← h.treeBelow_room d.segmentCount 1 id (Nat.le_add_left _ _), treeBelow]
  rfl

theorem Sound.preorder_numbersBelow (h : d.Sound) (id : Nat) :
    (d.numbersBelow id).preorder = id :: (d.childrenOf id).flatMap fun c => (d.numbersBelow c).preorder := by
  rw [h.numbersBelow_eq, Tree.preorder, Tree.preorderAll_eq_flatMap, List.flatMap_map]

/-! ## How often a number stands in the pre-order -/

/-- How often the numbers of a list stand in a list of children. -/
def listings (d : Document) (ids : List Nat) (i : Nat) : Nat := (ids.map fun x => (d.childrenOf x).count i).sum

theorem listings_cons (id : Nat) (ids : List Nat) (i : Nat) :
    d.listings (id :: ids) i = (d.childrenOf id).count i + d.listings ids i := by
  rw [listings, List.map_cons, List.sum_cons, listings]

theorem listings_append (ids more : List Nat) (i : Nat) :
    d.listings (ids ++ more) i = d.listings ids i + d.listings more i := by
  rw [listings, List.map_append, List.sum_append, listings, listings]

/-- The induction is on the room; below it is the one over the children of a number. -/
theorem Sound.count_preorder (h : d.Sound) (i : Nat) : ∀ (room id : Nat), d.segmentCount ≤ id + room →
    (d.treeBelow room id).preorder.count i = (if id = i then 1 else 0) + d.listings (d.treeBelow room id).preorder i
  | 0, id, hroom => by
    have hnone : d.childrenOf id = [] := childrenOf_behind hroom
    rw [treeBelow, Tree.preorder, Tree.preorderAll, listings_cons, hnone, List.count_cons, List.count_nil, listings]
    simp
  | room + 1, id, hroom => by
    have hall : ∀ cs : List Nat, (∀ c ∈ cs, c ∈ d.childrenOf id) →
        (cs.flatMap fun c => (d.treeBelow room c).preorder).count i =
          cs.count i + d.listings (cs.flatMap fun c => (d.treeBelow room c).preorder) i := by
      intro cs
      induction cs with
      | nil => exact fun _ => rfl
      | cons c rest ih =>
        intro hcs
        have hlt := (h.lt_childrenOf (hcs c List.mem_cons_self)).1
        have hfirst := h.count_preorder i room c (by omega)
        have hrest := ih fun x hx => hcs x (List.mem_cons_of_mem _ hx)
        rw [List.flatMap_cons, List.count_append, listings_append, hfirst, hrest, List.count_cons]
        simp only [beq_iff_eq]
        omega
    have hchildren := hall (d.childrenOf id) fun c hc => hc
    rw [treeBelow, Tree.preorder, Tree.preorderAll_eq_flatMap, List.flatMap_map, List.count_cons, listings_cons, hchildren]
    simp only [beq_iff_eq]
    omega

/-- A segment that is not the root is listed as often as its parent stands in a list. -/
theorem Sound.listings_eq_count (h : d.Sound) {i p : Nat} {s : Segment} (hs : d.segment? i = some s)
    (hp : s.parent = some p) (ids : List Nat) : d.listings ids i = ids.count p := by
  have hone : ∀ x, (d.childrenOf x).count i = if x = p then 1 else 0 := by
    intro x
    cases ht : d.segment? x with
    | some t =>
      rw [childrenOf_eq ht]
      exact h.count_children hs hp ht
    | none =>
      have hne : x ≠ p := by
        rintro rfl
        have hi : i ≠ rootId := by
          intro he
          rw [(h.parent_eq_none_iff hs).mpr he] at hp
          cases hp
        obtain ⟨q, parent, -, hq, hparent, -⟩ := h.above i s hs hi
        rw [hp, Option.some_inj] at hq
        rw [← hq, ht] at hparent
        cases hparent
      rw [childrenOf, ht, if_neg hne]
      rfl
  induction ids with
  | nil => rfl
  | cons x rest ih =>
    rw [listings_cons, ih, hone, List.count_cons]
    simp only [beq_iff_eq]
    omega

/-- What no segment lists is not listed. -/
theorem listings_eq_zero {i : Nat} (hi : ∀ x, i ∉ d.childrenOf x) (ids : List Nat) : d.listings ids i = 0 := by
  induction ids with
  | nil => rfl
  | cons x rest ih => rw [listings_cons, ih, List.count_eq_zero_of_not_mem (hi x)]

theorem Sound.root_lt (h : d.Sound) : rootId < d.segmentCount := by
  obtain ⟨r, hr, -⟩ := h.root
  exact segment?_lt hr

/-- Every segment stands once in the pre-order of a sound document: the root does, and every other as often as its
parent. -/
theorem Sound.count_idTree (h : d.Sound) : ∀ (n i : Nat), i ≤ n → i < d.segmentCount → d.idTree.preorder.count i = 1 := by
  intro n
  induction n with
  | zero =>
    intro i hi _
    obtain rfl : i = rootId := Nat.le_zero.mp hi
    have hnone : ∀ x, rootId ∉ d.childrenOf x := by
      intro x hx
      have := (h.lt_childrenOf hx).1
      exact Nat.not_lt_zero x this
    rw [idTree, h.count_preorder rootId d.segmentCount rootId (Nat.le_add_left _ _), listings_eq_zero hnone, if_pos rfl]
  | succ n ih =>
    intro i hi hlt
    by_cases hle : i ≤ n
    · exact ih i hle hlt
    have hne : i ≠ rootId := by
      intro he
      rw [he] at hle
      exact hle (Nat.zero_le n)
    obtain ⟨s, hs⟩ : ∃ s, d.segment? i = some s := ⟨_, Array.getElem?_eq_getElem hlt⟩
    obtain ⟨p, parent, hpi, hp, hparent, -⟩ := h.above i s hs hne
    have hup : d.idTree.preorder.count p = 1 := ih p (by omega) (segment?_lt hparent)
    rw [idTree, h.count_preorder i d.segmentCount rootId (Nat.le_add_left _ _), h.listings_eq_count hs hp,
      if_neg (Ne.symm hne), Nat.zero_add]
    exact hup

/-- The pre-order of a sound document has every segment once, and nothing else. -/
theorem Sound.idTree_perm (h : d.Sound) : d.idTree.preorder.Perm (List.range d.segmentCount) := by
  refine List.perm_iff_count.mpr fun i => ?_
  by_cases hi : i < d.segmentCount
  · rw [h.count_idTree i i (Nat.le_refl i) hi]
    exact (List.count_eq_one_of_mem List.nodup_range (List.mem_range.mpr hi)).symm
  · have hroot := h.root_lt
    have hnone : ∀ x, i ∉ d.childrenOf x := fun x hx => hi (h.lt_childrenOf hx).2
    have hrange : i ∉ List.range d.segmentCount := fun hm => hi (List.mem_range.mp hm)
    rw [idTree, h.count_preorder i d.segmentCount rootId (Nat.le_add_left _ _), listings_eq_zero hnone,
      if_neg (by omega), List.count_eq_zero_of_not_mem hrange]

/-! ## The visit -/

/-- A visit with room for all that stands below what waits is the pre-order of it. -/
theorem Sound.visit_eq (h : d.Sound) : ∀ (room : Nat) (waiting : List Nat),
    (waiting.flatMap fun id => (d.numbersBelow id).preorder).length ≤ room →
      d.visit room waiting = waiting.flatMap fun id => (d.numbersBelow id).preorder := by
  intro room
  induction room with
  | zero =>
    intro waiting hroom
    rw [List.length_eq_zero_iff.mp (Nat.le_zero.mp hroom)]
    rfl
  | succ room ih =>
    intro waiting hroom
    cases waiting with
    | nil => rfl
    | cons id rest =>
      rw [List.flatMap_cons, h.preorder_numbersBelow, List.cons_append, List.length_cons, ← List.flatMap_append] at hroom
      rw [List.flatMap_cons, h.preorder_numbersBelow, List.cons_append, ← List.flatMap_append, visit,
        ih _ (Nat.le_of_succ_le_succ hroom)]

/-- The visit of a sound document is the pre-order of its tree. -/
theorem Sound.order_eq (h : d.Sound) : d.order = d.idTree.preorder := by
  have hlength : d.idTree.preorder.length = d.segmentCount := by
    rw [h.idTree_perm.length_eq, List.length_range]
  have hall : ([rootId].flatMap fun id => (d.numbersBelow id).preorder) = d.idTree.preorder := by
    rw [List.flatMap_cons, List.flatMap_nil, List.append_nil]
    rfl
  rw [order, h.visit_eq _ _ (by rw [hall, hlength]), hall]

theorem Sound.order_perm (h : d.Sound) : d.order.Perm (List.range d.segmentCount) := h.order_eq ▸ h.idTree_perm

end DocWire.Document
