/-
  DocWire.Proofs.Document.Violations — what the report on a document says, segment by segment.

  A value is unfit for its field when it has no wire string, or one that the enumeration of the field lacks
  (`Unfit`). A segment lacks a child type when the type occurs less often than its slot demands (`Document.Lacks`). The
  report has one violation for each of these and no others: segments in the order of the visit, in each the fields in
  the order of declaration and then the slots (`Sound.validate_eq`). No slot is ever overfull, since a document never
  holds more than its limits.

  The report is made from the tree, where paths are numbered on the way down. Here a path is told from the segment
  upwards (`Document.pathTo`): that of its parent, its type, and how many siblings of the type stand before it. The
  induction is on the room for the tree; over the siblings it carries what stands before them.
-/

import DocWire.Document.Validate
import DocWire.Proofs.Document.Order
import DocWire.Proofs.Field.Entry

namespace DocWire

/-! ## Values -/

/-- A value that a receiver refuses: it has no wire string, or one that the enumeration of its field lacks. -/
def Unfit (e : FieldDecl × Value) : Prop :=
  (∃ cause, Coercion.encode e.1.format e.2 = .error cause) ∨
    ∃ wire, Coercion.encode e.1.format e.2 = .ok wire ∧ e.1.values ≠ [] ∧ wire ∉ e.1.values

theorem unfit_of_error {e : FieldDecl × Value} {cause : CoercionError}
    (h : Coercion.encode e.1.format e.2 = .error cause) : Unfit e := .inl ⟨cause, h⟩

theorem unfit_iff_of_ok {e : FieldDecl × Value} {wire : String} (h : Coercion.encode e.1.format e.2 = .ok wire) :
    Unfit e ↔ e.1.values ≠ [] ∧ wire ∉ e.1.values := by
  constructor
  · rintro (⟨cause, hcause⟩ | ⟨wire', hwire, hlisted⟩)
    · rw [h] at hcause
      cases hcause
    · rw [h, Except.ok.injEq] at hwire
      exact hwire ▸ hlisted
  · exact fun hlisted => .inr ⟨wire, h, hlisted⟩

instance (e : FieldDecl × Value) : Decidable (Unfit e) :=
  match h : Coercion.encode e.1.format e.2 with
  | .error _ => .isTrue (unfit_of_error h)
  | .ok _ => decidable_of_iff _ (unfit_iff_of_ok h).symm

/-- What is said of an unfit value. -/
def unfitCause (e : FieldDecl × Value) : ViolationCause :=
  match Coercion.encode e.1.format e.2 with
  | .error cause => .notRepresentable e.1.name cause
  | .ok wire => .notAllowed e.1.name wire e.1.values

theorem fieldCause?_eq (e : FieldDecl × Value) : fieldCause? e.1 e.2 = if Unfit e then some (unfitCause e) else none := by
  unfold fieldCause? unfitCause
  cases h : Coercion.encode e.1.format e.2 with
  | error cause =>
    rw [if_pos (unfit_of_error h)]
  | ok wire =>
    simp only [unfit_iff_of_ok h]
    by_cases hnone : e.1.values = []
    · simp [FieldDecl.allows, hnone]
    · by_cases hlisted : wire ∈ e.1.values <;> simp [FieldDecl.allows, hnone, hlisted]

/-- Of the values of a segment or record, the unfit ones are reported, in their order. -/
theorem fieldViolations_eq (path : String) (entries : List (FieldDecl × Value)) :
    fieldViolations path entries = (entries.filter Unfit).map fun e => ⟨path, unfitCause e⟩ := by
  induction entries with
  | nil => rfl
  | cons e rest ih =>
    obtain ⟨decl, value⟩ := e
    have hown : ((fieldCause? decl value).map fun cause => Violation.mk path cause) =
        if Unfit (decl, value) then some ⟨path, unfitCause (decl, value)⟩ else none := by
      rw [fieldCause?_eq (decl, value)]
      split <;> rfl
    unfold fieldViolations at ih ⊢
    by_cases hunfit : Unfit (decl, value)
    · rw [if_pos hunfit] at hown
      simp only [List.filterMap_cons, hown, ih]
      rw [List.filter_cons_of_pos (by simpa using hunfit), List.map_cons]
    · rw [if_neg hunfit] at hown
      simp only [List.filterMap_cons, hown, ih]
      rw [List.filter_cons_of_neg (by simpa using hunfit)]

/-- A value that is not unfit has a wire string. -/
theorem encodes_of_not_unfit {e : FieldDecl × Value} (h : ¬ Unfit e) : Encodes e := by
  by_contra hno
  obtain ⟨cause, hcause⟩ := not_encodes_iff.mp hno
  exact h (unfit_of_error hcause)

namespace Document

variable {d : Document}

/-! ## Paths -/

/-- The path of a segment, told from it upwards through at most `room` segments. -/
def pathUp (d : Document) : Nat → Nat → String
  | 0, _ => "/" ++ rootType
  | room + 1, id =>
    match (d.segment id).parent with
    | none => "/" ++ rootType
    | some p =>
      let name := (d.segment id).type.name
      pathUp d room p ++ "/" ++ name ++ "[" ++ toString ((d.childrenNamed (d.segment p) name).idxOf id) ++ "]"

/-- The path of a segment: that of its parent, and its own type with the number of siblings of that type before it. -/
def pathTo (d : Document) (id : Nat) : String := d.pathUp id id

theorem Sound.pathUp_root (h : d.Sound) (room : Nat) : d.pathUp room rootId = "/" ++ rootType := by
  obtain ⟨r, hr, -, hnone, -⟩ := h.root
  cases room with
  | zero => rfl
  | succ room => simp only [pathUp, segment_eq hr, hnone]

/-- A segment has no more segments above it than its number. -/
theorem Sound.pathUp_room (h : d.Sound) : ∀ (room more id : Nat), id ≤ room → id ≤ more → id < d.segmentCount →
    d.pathUp room id = d.pathUp more id := by
  intro room
  induction room with
  | zero =>
    intro more id hroom _ _
    obtain rfl : id = rootId := Nat.le_zero.mp hroom
    rw [h.pathUp_root, h.pathUp_root]
  | succ room ih =>
    intro more id hroom hmore hlt
    by_cases hroot : id = rootId
    · rw [hroot, h.pathUp_root, h.pathUp_root]
    obtain ⟨s, hs⟩ : ∃ s, d.segment? id = some s := ⟨_, Array.getElem?_eq_getElem hlt⟩
    obtain ⟨p, parent, hp, hparent, hps, -⟩ := h.above id s hs hroot
    obtain ⟨more, rfl⟩ : ∃ n, more = n + 1 := ⟨more - 1, by omega⟩
    simp only [pathUp, segment_eq hs, hparent]
    rw [ih more p (by omega) (by omega) (segment?_lt hps)]

theorem Sound.pathTo_child (h : d.Sound) {c p : Nat} {s parent : Segment} (hs : d.segment? c = some s)
    (hp : s.parent = some p) (hparent : d.segment? p = some parent) :
    d.pathTo c = d.pathTo p ++ "/" ++ s.type.name ++ "[" ++
      toString ((d.childrenNamed parent s.type.name).idxOf c) ++ "]" := by
  have hroot : c ≠ rootId := by
    intro he
    rw [(h.parent_eq_none_iff hs).mpr he] at hp
    cases hp
  obtain ⟨q, parent', hq, hsq, -⟩ := h.above c s hs hroot
  rw [hp, Option.some_inj] at hsq
  subst hsq
  obtain ⟨before, rfl⟩ : ∃ n, c = n + 1 := ⟨c - 1, by omega⟩
  rw [pathTo]
  simp only [pathUp, segment_eq hs, hp, segment_eq hparent]
  rw [h.pathUp_room before p p (by omega) (Nat.le_refl p) (segment?_lt hparent), ← pathTo]

/-! ## Segments -/

/-- A child type occurs less often under a segment than its slot demands. -/
def Lacks (d : Document) (id : Nat) (slot : ChildSlot) : Prop :=
  (d.childrenNamed (d.segment id) slot.segmentType).length < max slot.minOccurrence (if slot.mandatory then 1 else 0)

instance (id : Nat) (slot : ChildSlot) : Decidable (d.Lacks id slot) := inferInstanceAs (Decidable (_ < _))

/-- What is said of a value of a segment. -/
def unfitIn (d : Document) (id : Nat) (e : FieldDecl × Value) : Violation := ⟨d.pathTo id, unfitCause e⟩

/-- What is said of a child type that a segment lacks. -/
def lackingIn (d : Document) (id : Nat) (slot : ChildSlot) : Violation :=
  ⟨d.pathTo id, .tooFew slot.segmentType (d.childrenNamed (d.segment id) slot.segmentType).length
    (max slot.minOccurrence (if slot.mandatory then 1 else 0))⟩

/-- All that is to be said of one segment: its unfit values, and then the child types that it lacks. -/
def faultsOf (d : Document) (id : Nat) : List Violation :=
  ((d.segment id).entries.filter Unfit).map (fun e => d.unfitIn id e) ++
    ((d.segment id).type.children.filter (d.Lacks id)).map fun slot => d.lackingIn id slot

theorem typeOf_subtree {c : Nat} {s : Segment} (hs : d.segment? c = some s) (room : Nat) :
    typeOf (d.subtree room c) = s.type.name := by
  rw [typeOf, subtree_value, segment_eq hs]

/-- The trees of some children count as the children themselves do. -/
theorem count_types (room : Nat) (name : String) {cs : List Nat} (hcs : ∀ c ∈ cs, ∃ s, d.segment? c = some s) :
    (cs.map fun c => typeOf (d.subtree room c)).count name =
      (cs.filter fun c => d.typeName? c == some name).length := by
  rw [List.count_eq_countP, List.countP_map, List.countP_eq_length_filter]
  refine congrArg List.length (List.filter_congr fun c hc => ?_)
  obtain ⟨s, hs⟩ := hcs c hc
  simp only [Function.comp_apply, typeOf_subtree hs, typeName?, hs, Option.map_some]
  rfl

/-- Slots within their limits come only short. -/
theorem slotViolations_eq (path : String) (count : ChildSlot → Nat) {slots : List ChildSlot}
    (hlimits : ∀ slot ∈ slots, count slot ≤ slot.maxOccurrence) :
    (slots.flatMap fun slot => (slot.countCauses (count slot)).map fun cause => Violation.mk path cause) =
      (slots.filter fun slot => count slot < slot.required).map fun slot =>
        ⟨path, .tooFew slot.segmentType (count slot) slot.required⟩ := by
  induction slots with
  | nil => rfl
  | cons slot rest ih =>
    have hle := hlimits slot List.mem_cons_self
    rw [List.flatMap_cons, ih fun s hs => hlimits s (List.mem_cons_of_mem _ hs), ChildSlot.countCauses,
      if_neg (Nat.not_lt.mpr hle), List.append_nil]
    by_cases hfew : count slot < slot.required
    · rw [if_pos hfew, List.filter_cons_of_pos (by simpa using hfew)]
      rfl
    · rw [if_neg hfew, List.filter_cons_of_neg (by simpa using hfew)]
      rfl

theorem Sound.segmentViolations_eq (h : d.Sound) {id : Nat} {s : Segment} (hs : d.segment? id = some s) (room : Nat) :
    segmentViolations (d.pathTo id) s (s.children.map (d.subtree room)) = d.faultsOf id := by
  have hcount : ∀ slot : ChildSlot, countOf (s.children.map (d.subtree room)) slot.segmentType =
      (d.childrenNamed s slot.segmentType).length := by
    intro slot
    rw [childrenNamed, ← count_types room slot.segmentType fun c hc => (h.listed id s hs c hc).imp fun t ht => ht.1,
      countOf, List.count_eq_countP, List.countP_map, List.filter_map, List.length_map, List.countP_eq_length_filter]
    rfl
  have hslots := slotViolations_eq (d.pathTo id) (fun slot => (d.childrenNamed s slot.segmentType).length) (h.limits id s hs)
  simp only [segmentViolations, fieldViolations_eq, hcount, hslots, faultsOf, unfitIn, lackingIn, Lacks, segment_eq hs,
    ChildSlot.required]
  rfl

/-! ## The report -/

/-- The induction is on the room; `ahead` are the children before those that are followed. -/
theorem Sound.violationsBelow_eq (h : d.Sound) : ∀ (room id : Nat) {s : Segment}, d.segment? id = some s →
    d.segmentCount ≤ id + room →
    violationsBelow (d.pathTo id) (d.subtree room id) = (d.treeBelow room id).preorder.flatMap d.faultsOf
  | 0, id, s, hs, hroom => by
    have := segment?_lt hs
    omega
  | room + 1, id, s, hs, hroom => by
    have hall : ∀ behind ahead : List Nat, s.children = ahead ++ behind →
        violationsOfAll (d.pathTo id) (ahead.map fun c => typeOf (d.subtree room c)).reverse (behind.map (d.subtree room)) =
          (behind.flatMap fun c => (d.treeBelow room c).preorder).flatMap d.faultsOf := by
      intro behind
      induction behind with
      | nil => exact fun _ _ => rfl
      | cons c rest ih =>
        intro ahead hsplit
        have hc : c ∈ s.children := by
          rw [hsplit]
          exact List.mem_append_right _ List.mem_cons_self
        obtain ⟨t, ht, hparent⟩ := h.listed id s hs c hc
        have hlt := h.lt_child hs hc
        have hahead : ∀ x ∈ ahead, ∃ u, d.segment? x = some u := by
          intro x hx
          have hx : x ∈ s.children := by
            rw [hsplit]
            exact List.mem_append_left _ hx
          exact (h.listed id s hs x hx).imp fun u hu => hu.1
        have hplace : (d.childrenNamed s t.type.name).idxOf c =
            (ahead.map fun c => typeOf (d.subtree room c)).count t.type.name := by
          rw [count_types room _ hahead]
          exact h.idxOf_childrenNamed hs ht hsplit
        have hown := h.violationsBelow_eq room c ht (by omega)
        rw [h.pathTo_child ht hparent hs, hplace] at hown
        have hrest := ih (ahead ++ [c]) (by rw [hsplit, List.append_assoc]; rfl)
        rw [List.map_append, List.reverse_append] at hrest
        rw [List.map_cons, violationsOfAll, List.flatMap_cons, List.flatMap_append, ← hrest, ← hown]
        simp only [typeOf_subtree ht, List.count_reverse, List.map_cons, List.map_nil, List.reverse_cons, List.reverse_nil,
          List.nil_append, List.cons_append]
    have hchildren := hall s.children [] rfl
    rw [subtree_succ hs, treeBelow, Tree.preorder, Tree.preorderAll_eq_flatMap, List.flatMap_map, List.flatMap_cons,
      childrenOf_eq hs, violationsBelow, h.segmentViolations_eq hs]
    exact congrArg (d.faultsOf id ++ ·) hchildren

/-- The report has what is to be said of each segment, in the order of the visit. -/
theorem Sound.validate_eq (h : d.Sound) : d.validate = d.order.flatMap d.faultsOf := by
  obtain ⟨r, hr, -⟩ := h.root
  have hreport := h.violationsBelow_eq d.segmentCount rootId hr (Nat.le_add_left _ _)
  rw [pathTo, h.pathUp_root] at hreport
  rw [h.order_eq, validate, tree_eq]
  exact hreport

end Document

end DocWire
