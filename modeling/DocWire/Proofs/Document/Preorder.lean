/-
  DocWire.Proofs.Document.Preorder — the loop that lists the segments of a document.

  The segments are listed with a stack. A round takes the number on top, lists it, and puts the children of its segment
  on the stack, the last of them first, so that the first is on top. The loop ends when the stack is empty; a number that
  is no segment would stop it.

  What is listed, and behind it the walks of what waits, from the top down, is the walk of the whole tree
  (`Sound.listed_waiting`): a round takes the first number of the top walk and leaves the walks of its children, and that
  is what a walk consists of. Each round lists one number, and the walk of a sound document has every number once. So the
  loop ends, after as many rounds as there are segments, and it never finds a number that is no segment.

  `order_listsTree`: of every document that comes about, the segments are listed in the pre-order of its tree.
-/

import DocWire.Proofs.Document.Order
import DocWire.Proofs.Document.Reach

namespace DocWire.Document

variable {d : Document}

/-! ## The loop -/

/-- What the loop holds between two rounds: the numbers that it has listed, and those that wait, the next one last. -/
structure Stack where
  listed : List Nat
  waiting : List Nat

/-- One round of the loop. There is none where nothing waits, or where the next number is no segment. -/
inductive Round (d : Document) : Stack → Stack → Prop
  | list {listed waiting : List Nat} {id : Nat} {s : Segment} : d.segment? id = some s →
      Round d ⟨listed, waiting ++ [id]⟩ ⟨listed ++ [id], waiting ++ s.children.reverse⟩

/-- What the loop holds after a number of rounds. -/
inductive After (d : Document) : Nat → Stack → Prop
  | start : After d 0 ⟨[], [rootId]⟩
  | round {n : Nat} {v v' : Stack} : After d n v → Round d v v' → After d (n + 1) v'

/-! ## The walk -/

mutual

/-- The walk of a segment: its number, and behind it the walks of its children. -/
inductive Walk (d : Document) : Nat → List Nat → Prop
  | segment {id : Nat} {s : Segment} {below : List Nat} : d.segment? id = some s → Walks d s.children below →
      Walk d id (id :: below)

/-- The walks of some segments, one behind the other. -/
inductive Walks (d : Document) : List Nat → List Nat → Prop
  | nil : Walks d [] []
  | cons {id : Nat} {rest walk more : List Nat} : Walk d id walk → Walks d rest more →
      Walks d (id :: rest) (walk ++ more)

end

theorem Walks.of_forall {walk : Nat → List Nat} :
    ∀ {ids : List Nat}, (∀ id ∈ ids, d.Walk id (walk id)) → d.Walks ids (ids.flatMap walk)
  | [], _ => .nil
  | id :: rest, h => by
    have hrest : d.Walks rest (rest.flatMap walk) := .of_forall fun x hx => h x (List.mem_cons_of_mem _ hx)
    rw [List.flatMap_cons]
    exact .cons (h id List.mem_cons_self) hrest

/-- The induction goes from the last segment to the first, since children are behind their parent. -/
theorem Sound.walk (h : d.Sound) : ∀ (room id : Nat), d.segmentCount ≤ id + room → id < d.segmentCount →
    d.Walk id (d.numbersBelow id).preorder
  | 0, id, hroom, hlt => by omega
  | room + 1, id, hroom, hlt => by
    obtain ⟨s, hs⟩ := exists_segment hlt
    rw [h.preorder_numbersBelow, childrenOf_eq hs]
    refine .segment hs (.of_forall fun c hc => h.walk room c ?_ (h.child_lt hs hc))
    have := h.lt_child hs hc
    omega

theorem Sound.walks_children (h : d.Sound) {id : Nat} {s : Segment} (hs : d.segment? id = some s) :
    d.Walks s.children (s.children.flatMap fun c => (d.numbersBelow c).preorder) :=
  .of_forall fun c hc => h.walk d.segmentCount c (Nat.le_add_left _ _) (h.child_lt hs hc)

mutual

theorem Walk.eq_preorder (h : d.Sound) {id : Nat} : ∀ {walk : List Nat}, d.Walk id walk →
    walk = (d.numbersBelow id).preorder
  | _, .segment hs hbelow => by rw [h.preorder_numbersBelow, childrenOf_eq hs, hbelow.eq_flatMap h]

theorem Walks.eq_flatMap (h : d.Sound) : ∀ {ids walks : List Nat}, d.Walks ids walks →
    walks = ids.flatMap fun id => (d.numbersBelow id).preorder
  | _, _, .nil => rfl
  | _, _, .cons hfirst hrest => by rw [List.flatMap_cons, ← hfirst.eq_preorder h, ← hrest.eq_flatMap h]

end

/-! ## The loop lists the walk -/

theorem Sound.order_eq_root (h : d.Sound) : d.order = (d.numbersBelow rootId).preorder := h.order_eq

theorem Sound.order_length (h : d.Sound) : d.order.length = d.segmentCount := by
  rw [h.order_perm.length_eq, List.length_range]

/-- Only segments wait. -/
theorem Sound.waiting_lt (h : d.Sound) {n : Nat} {v : Stack} (hv : d.After n v) : ∀ id ∈ v.waiting, id < d.segmentCount := by
  induction hv with
  | start =>
    intro id hid
    exact List.mem_singleton.mp hid ▸ h.root_lt
  | @round n v v' _ hround ih =>
    obtain @⟨listed, waiting, top, s, hs⟩ := hround
    intro id hid
    rcases List.mem_append.mp hid with hid | hid
    · exact ih id (List.mem_append_left _ hid)
    · exact h.child_lt hs (List.mem_reverse.mp hid)

/-- What is listed and the walks of what waits are the whole order; a round lists one number. -/
theorem Sound.listed_waiting (h : d.Sound) {n : Nat} {v : Stack} (hv : d.After n v) :
    v.listed.length = n ∧
      v.listed ++ v.waiting.reverse.flatMap (fun id => (d.numbersBelow id).preorder) = d.order := by
  induction hv with
  | start =>
    refine ⟨rfl, ?_⟩
    rw [h.order_eq_root, List.reverse_singleton, List.flatMap_cons, List.flatMap_nil, List.append_nil, List.nil_append]
  | @round n v v' _ hround ih =>
    obtain @⟨listed, waiting, top, s, hs⟩ := hround
    obtain ⟨hlength, horder⟩ := ih
    refine ⟨by rw [List.length_append, List.length_singleton, hlength], ?_⟩
    rw [List.reverse_append, List.reverse_singleton, List.singleton_append, List.flatMap_cons, h.preorder_numbersBelow,
      childrenOf_eq hs] at horder
    rw [List.reverse_append, List.reverse_reverse, List.flatMap_append, List.append_assoc, List.singleton_append]
    exact horder

theorem Sound.listed_eq_take (h : d.Sound) {n : Nat} {v : Stack} (hv : d.After n v) : v.listed = d.order.take n := by
  obtain ⟨hlength, horder⟩ := h.listed_waiting hv
  rw [← horder, ← hlength, List.take_left]

theorem Sound.rounds_le (h : d.Sound) {n : Nat} {v : Stack} (hv : d.After n v) : n ≤ d.segmentCount := by
  obtain ⟨hlength, horder⟩ := h.listed_waiting hv
  have hcount := congrArg List.length horder
  rw [List.length_append, h.order_length] at hcount
  omega

theorem Sound.waiting_eq_nil_iff (h : d.Sound) {n : Nat} {v : Stack} (hv : d.After n v) :
    v.waiting = [] ↔ n = d.segmentCount := by
  obtain ⟨hlength, horder⟩ := h.listed_waiting hv
  have hcount := congrArg List.length horder
  rw [List.length_append, h.order_length, hlength] at hcount
  constructor
  · intro hnone
    rw [hnone] at hcount
    exact hcount
  · intro hn
    refine List.eq_nil_iff_forall_not_mem.mpr fun id hid => ?_
    have hrest : (v.waiting.reverse.flatMap fun id => (d.numbersBelow id).preorder) = [] :=
      List.length_eq_zero_iff.mp (by omega)
    have hwalk := List.flatMap_eq_nil_iff.mp hrest id (List.mem_reverse.mpr hid)
    rw [h.preorder_numbersBelow] at hwalk
    cases hwalk

/-- While something waits there is a next round. -/
theorem Sound.exists_round (h : d.Sound) {n : Nat} {v : Stack} (hv : d.After n v) (hne : v.waiting ≠ []) :
    ∃ v', d.Round v v' := by
  obtain ⟨listed, waiting⟩ := v
  obtain ⟨rest, top, rfl⟩ : ∃ rest top, waiting = rest ++ [top] :=
    ⟨_, _, (List.dropLast_append_getLast hne).symm⟩
  obtain ⟨s, hs⟩ := exists_segment (h.waiting_lt hv top (List.mem_append_right _ (List.mem_singleton.mpr rfl)))
  exact ⟨_, .list hs⟩

theorem Sound.exists_after (h : d.Sound) : ∀ n ≤ d.segmentCount, ∃ v, d.After n v := by
  intro n
  induction n with
  | zero => exact fun _ => ⟨_, .start⟩
  | succ n ih =>
    intro hn
    obtain ⟨v, hv⟩ := ih (by omega)
    have hne : v.waiting ≠ [] := by
      rw [Ne, h.waiting_eq_nil_iff hv]
      omega
    obtain ⟨v', hround⟩ := h.exists_round hv hne
    exact ⟨v', .round hv hround⟩

theorem Sound.after_all (h : d.Sound) : d.After d.segmentCount ⟨d.order, []⟩ := by
  obtain ⟨⟨listed, waiting⟩, hv⟩ := h.exists_after d.segmentCount (Nat.le_refl _)
  obtain rfl : waiting = [] := (h.waiting_eq_nil_iff hv).mpr rfl
  have hlisted : listed = d.order := by rw [← List.take_length (l := d.order), h.order_length, ← h.listed_eq_take hv]
  exact hlisted ▸ hv

/-- The walk of every segment stands in the order as a whole. -/
theorem Sound.walk_infix (h : d.Sound) : ∀ (n id : Nat), id ≤ n → id < d.segmentCount →
    (d.numbersBelow id).preorder <:+: d.order := by
  intro n
  induction n with
  | zero =>
    intro id hid _
    obtain rfl : id = rootId := Nat.le_zero.mp hid
    rw [h.order_eq_root]
  | succ n ih =>
    intro id hid hlt
    by_cases hroot : id = rootId
    · rw [hroot, h.order_eq_root]
    obtain ⟨s, hs⟩ := exists_segment hlt
    obtain ⟨p, parent, hp, -, hparent, hcount, -⟩ := h.above id s hs hroot
    have hmem : id ∈ parent.children := List.count_pos_iff.mp (by omega)
    have hbelow : (d.numbersBelow id).preorder <:+: parent.children.flatMap fun c => (d.numbersBelow c).preorder :=
      List.infix_of_mem_flatten (List.mem_map.mpr ⟨id, hmem, rfl⟩)
    have hfirst : (d.numbersBelow id).preorder <:+: (d.numbersBelow p).preorder := by
      rw [h.preorder_numbersBelow p, childrenOf_eq hparent]
      exact hbelow.trans (List.suffix_cons _ _).isInfix
    exact hfirst.trans (ih p (by omega) (segment?_lt hparent))

/-- The numbers of the segments of a document, as the loop lists them. -/
structure ListsTree (d : Document) (order : List Nat) : Prop where
  /-- After as many rounds as there are segments, all are listed and none waits. -/
  ends : d.After d.segmentCount ⟨order, []⟩
  /-- There are no more rounds than that, and each number is in its place when it is listed. Until then something waits,
  and what is next is a segment. -/
  rounds : ∀ n v, d.After n v → n ≤ d.segmentCount ∧ v.listed = order.take n ∧
    (v.waiting = [] ↔ n = d.segmentCount) ∧ (v.waiting ≠ [] → ∃ v', d.Round v v')
  once : order.Perm (List.range d.segmentCount)
  first : order.head? = some rootId
  /-- The list is the walk of the root, and there is no other. -/
  walk : ∀ walk, d.Walk rootId walk ↔ walk = order
  /-- Behind every segment stand the walks of its children, all of the first before those of the next. -/
  below : ∀ id s, d.segment? id = some s → ∃ below, d.Walks s.children below ∧ (id :: below) <:+: order

theorem Sound.listsTree (h : d.Sound) : d.ListsTree d.order where
  ends := h.after_all
  rounds n v hv := ⟨h.rounds_le hv, h.listed_eq_take hv, h.waiting_eq_nil_iff hv, h.exists_round hv⟩
  once := h.order_perm
  first := by rw [h.order_eq_root, h.preorder_numbersBelow, List.head?_cons]
  walk walk := by
    rw [h.order_eq_root]
    constructor
    · exact fun hwalk => hwalk.eq_preorder h
    · rintro rfl
      exact h.walk d.segmentCount rootId (Nat.le_add_left _ _) h.root_lt
  below id s hs := by
    refine ⟨_, h.walks_children hs, ?_⟩
    rw [← childrenOf_eq hs, ← h.preorder_numbersBelow]
    exact h.walk_infix id id (Nat.le_refl _) (segment?_lt hs)

/-- The segments of every document that comes about under a compiled registry are listed in the pre-order of its tree. -/
theorem order_listsTree {schema : Definition} {r : Registry} (hr : Registry.compile schema = .ok r) (h : Reach r d) :
    d.ListsTree d.order :=
  (h.sound hr).2.listsTree

/-- Orders with up to two heads. -/
def twoHeadType : MessageDef := { orderType with root := [{ segmentType := "HEAD", maxOccurrence := 2 }] }

def twoHeadSchema : MessageType := (Compile.compileMessageType twoHeadType).toOption.get rfl

def twoHeadOrders : Registry := ⟨[twoHeadSchema], [], []⟩

theorem twoHeadOrders_compiled : Registry.compile { messageTypes := [twoHeadType] } = .ok twoHeadOrders := rfl

/-- Two heads, and then an item for each. -/
def twoHeads : Document :=
  [.addChild 0 "HEAD", .addChild 0 "HEAD", .addChild 1 "ITEM", .addChild 2 "ITEM"].foldl edit
    (new twoHeadSchema twoItems.creation)

theorem order_listsTree_twoHeads :
    Registry.compile { messageTypes := [twoHeadType] } = .ok twoHeadOrders ∧ Reach twoHeadOrders twoHeads ∧
      twoHeads.ListsTree [0, 1, 3, 2, 4] := by
  have hreach : Reach twoHeadOrders twoHeads := (Reach.new _ _ (List.mem_singleton.mpr rfl)).edits _
  have horder : twoHeads.order = [0, 1, 3, 2, 4] := by decide +kernel
  exact ⟨twoHeadOrders_compiled, hreach, horder ▸ order_listsTree twoHeadOrders_compiled hreach⟩

end DocWire.Document
