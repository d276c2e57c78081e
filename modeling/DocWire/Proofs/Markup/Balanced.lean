/-
  DocWire.Proofs.Markup.Balanced — which events build an element, and which element they build.

  Tags that stand side by side and inside one another make up elements (`Spells`): the grammar gives the elements beside
  the tags, and without them it is that of balanced tags (`Balanced`, `Single`). The builder keeps a stack, so what it has
  taken in is cut at the tags that are still open: before, between and behind them everything is balanced, and makes up
  the root or the children that the open element has so far (`Building.TakenIn`). One event keeps this (`step_takenIn`),
  so a run of them does, and in the end nothing is open. The other way round, tags that make up elements attach them to
  whatever is open (`foldlM_spells`). Text and character data change nothing or are refused, so only tags count
  (`foldlM_tags`).

  - `balanced_built`: events are accepted exactly where their tags are one balanced element, the text between them is
    white space and there is no character data. The walk over the element gives the tags back, and its elements hold
    the declarations and the other attributes of their tags, each in the order of the tag.
-/

import DocWire.Proofs.Markup.Element

namespace DocWire.Markup

/-! ## Tags among the events -/

namespace Event

/-- An event that opens or closes an element. -/
def isTag : Event → Bool
  | .opened _ | .empty _ | .closed => true
  | _ => false

/-- The element that an event begins. -/
def head? : Event → Option Head
  | .opened head | .empty head => some head
  | _ => none

/-- An element without content is opened and closed at once. -/
def spread : Event → List Event
  | .empty head => [.opened head, .closed]
  | e => [e]

end Event

/-- Elements side by side, each closed before the next is opened. -/
inductive Balanced : List Event → Prop
  | nil : Balanced []
  | empty (head : Head) {rest : List Event} (hrest : Balanced rest) : Balanced (.empty head :: rest)
  | element (head : Head) {inside rest : List Event} (hinside : Balanced inside) (hrest : Balanced rest) :
      Balanced (.opened head :: (inside ++ .closed :: rest))

/-- One element, with nothing before and behind it. -/
inductive Single : List Event → Prop
  | empty (head : Head) : Single [.empty head]
  | element (head : Head) {inside : List Event} (hinside : Balanced inside) :
      Single (.opened head :: (inside ++ [.closed]))

/-- A text that is white space once its references are resolved. -/
def IsWhite (raw : String) : Prop := ∃ text, unescape raw = .ok text ∧ ∀ c ∈ text.toList, Text.isBlank c = true

namespace Element

mutual

/-- The walk over an element in document order. -/
def walk : Element → List Event
  | .mk head children => .opened head :: (walkAll children ++ [.closed])

def walkAll : List Element → List Event
  | [] => []
  | e :: rest => walk e ++ walkAll rest

end

mutual

/-- The element and those below it, without their children, in document order. -/
def heads : Element → List Head
  | .mk head children => head :: headsOf children

def headsOf : List Element → List Head
  | [] => []
  | e :: rest => heads e ++ headsOf rest

end

end Element

/-! ## Elements that tags make up -/

/-- Tags make up elements, which stand side by side. -/
inductive Spells : List Event → List Element → Prop
  | nil : Spells [] []
  | empty (head : Head) {rest : List Event} {es : List Element} (hrest : Spells rest es) :
      Spells (.empty head :: rest) (.mk head [] :: es)
  | element (head : Head) {inside rest : List Event} {children es : List Element} (hinside : Spells inside children)
      (hrest : Spells rest es) : Spells (.opened head :: (inside ++ .closed :: rest)) (.mk head children :: es)

variable {tags more : List Event} {es : List Element} {e : Element}

theorem Spells.append {es' : List Element} (h : Spells tags es) (h' : Spells more es') :
    Spells (tags ++ more) (es ++ es') := by
  induction h with
  | nil => exact h'
  | empty head _ ih => exact .empty head ih
  | element head hinside _ _ ih =>
    rw [List.cons_append, List.append_assoc, List.cons_append]
    exact .element head hinside ih

theorem Spells.one (head : Head) {inside : List Event} {children : List Element} (h : Spells inside children) :
    Spells (.opened head :: (inside ++ [.closed])) [.mk head children] := .element head h .nil

theorem spells_nil (h : Spells tags []) : tags = [] := by
  cases h
  rfl

theorem balanced_iff : Balanced tags ↔ ∃ es, Spells tags es := by
  constructor
  · intro h
    induction h with
    | nil => exact ⟨[], .nil⟩
    | empty head _ ih =>
      obtain ⟨es, hes⟩ := ih
      exact ⟨_, .empty head hes⟩
    | element head _ _ ihinside ihrest =>
      obtain ⟨children, hchildren⟩ := ihinside
      obtain ⟨es, hes⟩ := ihrest
      exact ⟨_, .element head hchildren hes⟩
  · rintro ⟨es, h⟩
    induction h with
    | nil => exact .nil
    | empty head _ ih => exact .empty head ih
    | element head _ _ ihinside ihrest => exact .element head ihinside ihrest

theorem single_iff : Single tags ↔ ∃ e, Spells tags [e] := by
  constructor
  · intro h
    cases h with
    | empty head => exact ⟨_, .empty head .nil⟩
    | element head hinside =>
      obtain ⟨children, hchildren⟩ := balanced_iff.mp hinside
      exact ⟨_, .one head hchildren⟩
  · rintro ⟨e, h⟩
    cases h with
    | empty head hrest =>
      obtain rfl := spells_nil hrest
      exact .empty head
    | element head hinside hrest =>
      obtain rfl := spells_nil hrest
      exact .element head (balanced_iff.mpr ⟨_, hinside⟩)

theorem Spells.walkAll (h : Spells tags es) : Element.walkAll es = tags.flatMap Event.spread := by
  induction h with
  | nil => rfl
  | empty head _ ih => simp [Element.walkAll, Element.walk, Event.spread, ih]
  | element head _ _ ihinside ihrest => simp [Element.walkAll, Element.walk, Event.spread, ihinside, ihrest]

theorem Spells.headsOf (h : Spells tags es) : Element.headsOf es = tags.filterMap Event.head? := by
  induction h with
  | nil => rfl
  | empty head _ ih => simp [Element.headsOf, Element.heads, Event.head?, ih]
  | element head _ _ ihinside ihrest =>
    simp [Element.headsOf, Element.heads, Event.head?, List.filterMap_cons, ihinside, ihrest]

/-! ## Building -/

namespace Building

/-- What has been taken in is balanced but for the tags that are open, and makes up the root and the children of the open
elements. -/
def TakenIn (root : Option Element) : List Open → List Event → Prop
  | [], taken => Spells taken root.toList
  | (head, done) :: outer, taken =>
    ∃ before inside, taken = before ++ .opened head :: inside ∧ TakenIn root outer before ∧ Spells inside done.reverse

variable {b b' : Building} {taken : List Event}

theorem attach_takenIn (h : TakenIn b.root b.stack taken) (he : Spells tags [e]) (hok : b.attach e = .ok b') :
    TakenIn b'.root b'.stack (taken ++ tags) := by
  obtain ⟨stack, root⟩ := b
  cases stack with
  | cons innermost outer =>
    obtain ⟨head, done⟩ := innermost
    cases hok
    obtain ⟨before, inside, rfl, hbefore, hinside⟩ := h
    refine ⟨before, inside ++ tags, by simp, hbefore, ?_⟩
    rw [List.reverse_cons]
    exact hinside.append he
  | nil =>
    cases root with
    | some e' => cases hok
    | none =>
      cases hok
      obtain rfl := spells_nil h
      exact he

theorem close_takenIn (h : TakenIn b.root b.stack taken) (hok : b.close = .ok b') :
    TakenIn b'.root b'.stack (taken ++ [.closed]) := by
  obtain ⟨stack, root⟩ := b
  cases stack with
  | nil => cases hok
  | cons innermost outer =>
    obtain ⟨head, done⟩ := innermost
    obtain ⟨before, inside, rfl, hbefore, hinside⟩ := h
    have hattached := attach_takenIn (b := ⟨outer, root⟩) hbefore (Spells.one head hinside) hok
    rwa [List.append_assoc]

theorem step_takenIn (h : TakenIn b.root b.stack taken) {ev : Event} (hok : b.step ev = .ok b') :
    TakenIn b'.root b'.stack (taken ++ [ev].filter Event.isTag) := by
  cases ev with
  | opened head =>
    cases hok
    exact ⟨taken, [], rfl, h, .nil⟩
  | empty head => exact attach_takenIn h (.empty head .nil) hok
  | closed => exact close_takenIn h hok
  | text raw =>
    obtain ⟨-, -, rfl⟩ := Outcome.map_eq_ok.mp hok
    rwa [List.filter_cons_of_neg (by simp [Event.isTag]), List.filter_nil, List.append_nil]
  | characters => cases hok
  | fault m => cases hok

theorem run_takenIn {evs : List Event} (h : TakenIn b.root b.stack taken) (hok : evs.foldlM step b = .ok b') :
    TakenIn b'.root b'.stack (taken ++ evs.filter Event.isTag) := by
  induction evs generalizing b taken with
  | nil =>
    cases hok
    rwa [List.filter_nil, List.append_nil]
  | cons ev rest ih =>
    rw [List.foldlM_cons] at hok
    obtain ⟨b₁, hstep, hrest⟩ := Outcome.bind_eq_ok.mp hok
    have hnext := ih (step_takenIn h hstep) hrest
    rwa [List.append_assoc, ← List.filter_append] at hnext

/-- Elements that are attached to an open one are its children. -/
theorem foldlM_attach (head : Head) (done : List Element) (outer : List Open) (root : Option Element) :
    es.foldlM attach ⟨(head, done) :: outer, root⟩ = .ok ⟨(head, es.reverse ++ done) :: outer, root⟩ := by
  induction es generalizing done with
  | nil => rfl
  | cons e rest ih =>
    rw [List.foldlM_cons]
    show rest.foldlM attach ⟨(head, e :: done) :: outer, root⟩ = _
    rw [ih, List.reverse_cons, List.append_assoc]
    rfl

/-- Tags that make up elements attach them, whatever is open. -/
theorem foldlM_spells (h : Spells tags es) (b : Building) : tags.foldlM step b = es.foldlM attach b := by
  induction h generalizing b with
  | nil => rfl
  | empty head _ ih =>
    rw [List.foldlM_cons, List.foldlM_cons]
    exact congrArg (b.attach (.mk head []) >>= ·) (funext ih)
  | element head _ _ ihinside ihrest =>
    rename_i inside rest children es _ _
    have hopen : inside.foldlM step ⟨(head, []) :: b.stack, b.root⟩ =
        .ok ⟨(head, children.reverse) :: b.stack, b.root⟩ := by
      rw [ihinside, foldlM_attach, List.append_nil]
    have hclose : close ⟨(head, children.reverse) :: b.stack, b.root⟩ = b.attach (.mk head children) := by
      show b.attach (.mk head children.reverse.reverse) = _
      rw [List.reverse_reverse]
    rw [List.foldlM_cons, List.foldlM_cons]
    show (inside ++ .closed :: rest).foldlM step ⟨(head, []) :: b.stack, b.root⟩ = _
    rw [List.foldlM_append, hopen]
    show (.closed :: rest).foldlM step ⟨(head, children.reverse) :: b.stack, b.root⟩ = _
    rw [List.foldlM_cons]
    show close ⟨(head, children.reverse) :: b.stack, b.root⟩ >>= _ = _
    rw [hclose]
    exact congrArg (b.attach (.mk head children) >>= ·) (funext ihrest)

/-! ## Text -/

/-- An event that is no reason to refuse, whatever is open. -/
def Passes : Event → Prop
  | .text raw => IsWhite raw
  | .characters | .fault _ => False
  | _ => True

theorem trim_isEmpty_iff {s : List Char} : (Text.trim s).isEmpty = true ↔ ∀ c ∈ s, Text.isBlank c = true := by
  rw [List.isEmpty_iff, Text.trim, Text.trimBoth, List.reverse_eq_nil_iff, List.dropWhile_eq_nil_iff]
  constructor
  · intro h c hc
    rw [← List.takeWhile_append_dropWhile (p := Text.isBlank) (l := s)] at hc
    rcases List.mem_append.mp hc with hc | hc
    · exact List.mem_takeWhile_imp hc
    · exact h c (List.mem_reverse.mpr hc)
  · intro h c hc
    exact h c ((List.dropWhile_sublist _).subset (List.mem_reverse.mp hc))

theorem checkText_eq_ok_iff {raw : String} : checkText raw = .ok () ↔ IsWhite raw := by
  unfold checkText IsWhite
  cases unescape raw with
  | error fault => simp
  | ok text =>
    simp only [Except.ok.injEq, exists_eq_left', ← trim_isEmpty_iff]
    split
    · simp_all
    · simp_all

theorem step_passes {ev : Event} (hok : b.step ev = .ok b') : Passes ev := by
  cases ev with
  | text raw =>
    obtain ⟨_, hchecked, _⟩ := Outcome.map_eq_ok.mp hok
    exact checkText_eq_ok_iff.mp hchecked
  | characters => cases hok
  | fault m => cases hok
  | _ => trivial

/-- Of events that pass only the tags do anything. -/
theorem foldlM_tags {evs : List Event} (h : ∀ ev ∈ evs, Passes ev) (b : Building) :
    evs.foldlM step b = (evs.filter Event.isTag).foldlM step b := by
  induction evs generalizing b with
  | nil => rfl
  | cons ev rest ih =>
    have hrest := ih fun ev hev => h ev (List.mem_cons_of_mem _ hev)
    cases hev : ev.isTag with
    | true =>
      rw [List.filter_cons_of_pos hev, List.foldlM_cons, List.foldlM_cons]
      exact congrArg (b.step ev >>= ·) (funext hrest)
    | false =>
      have hstays : b.step ev = .ok b := by
        have hpasses := h ev List.mem_cons_self
        cases ev with
        | text raw => rw [step, checkText_eq_ok_iff.mpr hpasses, Outcome.map_ok]
        | characters => exact hpasses.elim
        | fault m => exact hpasses.elim
        | _ => cases hev
      rw [List.filter_cons_of_neg (by simp [hev]), List.foldlM_cons, hstays]
      exact hrest b

end Building

variable {evs : List Event}

/-- Events build an element exactly where all of them pass and their tags make it up. -/
theorem ofEvents_eq_ok_iff :
    Element.ofEvents evs = .ok e ↔ Spells (evs.filter Event.isTag) [e] ∧ ∀ ev ∈ evs, Building.Passes ev := by
  constructor
  · intro h
    unfold Element.ofEvents at h
    split at h
    · cases h
    · rename_i b hrun
      have hpasses : ∀ ev ∈ evs, Building.Passes ev :=
        Outcome.foldlM_demands (I := fun _ => True) (fun _ _ _ _ hok => ⟨trivial, Building.step_passes hok⟩) trivial hrun
      have hstart : Building.TakenIn Building.start.root Building.start.stack [] := .nil
      have htaken := Building.run_takenIn hstart hrun
      obtain ⟨stack, root⟩ := b
      -- nothing is open in the end, and there is a root
      cases stack with
      | cons _ _ => cases h
      | nil =>
        cases root with
        | none => cases h
        | some root =>
          cases h
          exact ⟨htaken, hpasses⟩
  · rintro ⟨hspells, hpasses⟩
    have hrun : evs.foldlM Building.step Building.start = .ok ⟨[], some e⟩ := by
      rw [Building.foldlM_tags hpasses, Building.foldlM_spells hspells]
      rfl
    rw [Element.ofEvents, hrun]
    rfl

/-- An element holds the events that began it and the elements in it. -/
theorem heads_ofEvents (h : Element.ofEvents evs = .ok e) : e.heads = evs.filterMap Event.head? := by
  have hheads := (ofEvents_eq_ok_iff.mp h).1.headsOf
  rw [Element.headsOf, Element.headsOf, List.append_nil, List.filterMap_filter] at hheads
  rw [hheads]
  refine List.filterMap_congr ?_
  intro ev _
  cases ev <;> rfl

/-! ## Attributes -/

/-- Whether an attribute declares a prefix or the default namespace. -/
def isDeclaration (a : String × String) : Bool := (declaredPrefix? a.1).isSome

/-- The element of a tag, where prefixes are bound by `scope`: its name, its declarations and its other attributes, each
as the tag has them, with their references resolved. -/
structure Holds (scope : Scope) (t : Opening) (head : Head) : Prop where
  name : ∃ inner, declare scope t.attributes = .ok inner ∧ resolveElement inner t.name = .ok (head.ns, head.name)
  declarations : List.Forall₂ (fun a d => declaredPrefix? a.1 = some d.1 ∧ unescape a.2 = .ok d.2)
    (t.attributes.filter isDeclaration) head.declarations
  attributes : ∃ inner, declare scope t.attributes = .ok inner ∧
    List.Forall₂ (fun a b => unescape a.2 = .ok b.value ∧ resolveAttribute inner a.1 b.value = .ok b)
      (t.attributes.filter (!isDeclaration ·)) head.attributes

theorem value_of_resolveAttribute {scope : Scope} {name value : String} {a : Attribute}
    (h : resolveAttribute scope name value = .ok a) : a.value = value := by
  unfold resolveAttribute at h
  split at h
  · cases h
    rfl
  · obtain ⟨ns, -, rfl⟩ := Outcome.map_eq_ok.mp h
    rfl

/-- Attributes are added to one list or the other, behind those that are there. -/
theorem addAttributes_eq_ok {scope : Scope} {attrs : List (String × String)} {head head' : Head} {seen : List String}
    (h : addAttributes scope head seen attrs = .ok head') :
    ∃ ds as, head' = { head with declarations := head.declarations ++ ds, attributes := head.attributes ++ as } ∧
      List.Forall₂ (fun a d => declaredPrefix? a.1 = some d.1 ∧ unescape a.2 = .ok d.2)
        (attrs.filter isDeclaration) ds ∧
      List.Forall₂ (fun a b => unescape a.2 = .ok b.value ∧ resolveAttribute scope a.1 b.value = .ok b)
        (attrs.filter (!isDeclaration ·)) as := by
  induction attrs generalizing head seen with
  | nil =>
    cases h
    exact ⟨[], [], by simp, .nil, .nil⟩
  | cons a rest ih =>
    obtain ⟨name, raw⟩ := a
    rw [addAttributes] at h
    split at h
    · cases h
    split at h
    · cases h
    rename_i value hvalue
    split at h
    · rename_i declared hdeclared
      have hdeclares : isDeclaration (name, raw) = true := by rw [isDeclaration, hdeclared]; rfl
      obtain ⟨ds, as, rfl, hds, has⟩ := ih h
      refine ⟨(declared, value) :: ds, as, by simp, ?_, ?_⟩
      · rw [List.filter_cons_of_pos hdeclares]
        exact .cons ⟨hdeclared, hvalue⟩ hds
      · rw [List.filter_cons_of_neg (by simp [hdeclares])]
        exact has
    · rename_i hundeclared
      have hdeclares : isDeclaration (name, raw) = false := by rw [isDeclaration, hundeclared]; rfl
      split at h
      · cases h
      rename_i b hb
      obtain ⟨ds, as, rfl, hds, has⟩ := ih h
      have hbvalue := value_of_resolveAttribute hb
      refine ⟨ds, b :: as, by simp, ?_, ?_⟩
      · rw [List.filter_cons_of_neg (by simp [hdeclares])]
        exact hds
      · rw [List.filter_cons_of_pos (by simp [hdeclares])]
        exact .cons ⟨hbvalue ▸ hvalue, hbvalue ▸ hb⟩ has

theorem holds_of_resolveOpening {scope inner : Scope} {t : Opening} {head : Head}
    (h : resolveOpening scope t = .ok (head, inner)) : Holds scope t head := by
  unfold resolveOpening at h
  split at h
  · cases h
  rename_i bound hbound
  split at h
  · cases h
  rename_i ns name hname
  split at h
  · cases h
  rename_i head' hadd
  split at h
  · cases h
    obtain ⟨ds, as, rfl, hds, has⟩ := addAttributes_eq_ok hadd
    exact ⟨⟨_, hbound, hname⟩, hds, ⟨_, hbound, has⟩⟩
  · cases h

/-! ## What the tags of a text are met as -/

/-- What a tag is met as, where prefixes are bound by `scope` around it. -/
inductive MetAs (scope : Scope) : Tag → Event → Prop
  | opened {t : Opening} {head : Head} {inner : Scope} (h : resolveOpening scope t = .ok (head, inner)) :
      MetAs scope (.opening t) (.opened head)
  | empty {t : Opening} {head : Head} {inner : Scope} (h : resolveOpening scope t = .ok (head, inner)) :
      MetAs scope (.empty t) (.empty head)
  | closed (name : String) : MetAs scope (.closing name) .closed
  | text (raw : String) : MetAs scope (.text raw) (.text raw)
  | characters : MetAs scope .characters .characters

/-- The opening tag that a piece of markup is. -/
def Tag.opening? : Tag → Option Opening
  | .opening t | .empty t => some t
  | _ => none

/-- Tags, each with the scope around it. -/
abbrev Scoped := List (Scope × Tag)

def Scoped.openings (ts : Scoped) : List (Scope × Opening) := ts.filterMap fun p => p.2.opening?.map (p.1, ·)

theorem eventsFrom_error {openTags : List (String × Scope)} {t : Opening} {m : Malformed}
    (h : resolveOpening (scopeOf openTags) t = .error m) (rest : List Tag) :
    eventsFrom openTags (.opening t :: rest) = [.fault m] ∧ eventsFrom openTags (.empty t :: rest) = [.fault m] := by
  cases openTags with
  | nil =>
    rw [scopeOf] at h
    simp only [eventsFrom, h, and_self]
  | cons outer more =>
    rw [scopeOf] at h
    simp only [eventsFrom, h, and_self]

/-- Tags that all resolve are met one by one. -/
theorem eventsFrom_metAs {ts : List Tag} {openTags : List (String × Scope)}
    (h : ∀ m, .fault m ∉ eventsFrom openTags ts) :
    ∃ placed : Scoped, placed.map Prod.snd = ts ∧
      List.Forall₂ (fun p ev => MetAs p.1 p.2 ev) placed (eventsFrom openTags ts) := by
  induction ts generalizing openTags with
  | nil => exact ⟨[], rfl, .nil⟩
  | cons tag rest ih =>
    have hnext : ∀ {openTags' : List (String × Scope)} {ev : Event},
        eventsFrom openTags (tag :: rest) = ev :: eventsFrom openTags' rest → MetAs (scopeOf openTags) tag ev →
        ∃ placed : Scoped, placed.map Prod.snd = tag :: rest ∧
          List.Forall₂ (fun p ev => MetAs p.1 p.2 ev) placed (eventsFrom openTags (tag :: rest)) := by
      intro openTags' ev heq hmet
      have hbehind : ∀ m, .fault m ∉ eventsFrom openTags' rest := by
        intro m hm
        exact h m (by rw [heq]; exact List.mem_cons_of_mem _ hm)
      obtain ⟨placed, htags, hall⟩ := ih hbehind
      refine ⟨(scopeOf openTags, tag) :: placed, by rw [List.map_cons, htags], ?_⟩
      rw [heq]
      exact .cons hmet hall
    have hfaultless : ∀ m, eventsFrom openTags (tag :: rest) ≠ [.fault m] := by
      intro m heq
      exact h m (by rw [heq]; exact List.mem_singleton_self _)
    cases tag with
    | opening t =>
      cases hres : resolveOpening (scopeOf openTags) t with
      | error m => exact absurd (eventsFrom_error hres rest).1 (hfaultless m)
      | ok resolved => exact hnext (eventsFrom_opening hres rest) (.opened hres)
    | empty t =>
      cases hres : resolveOpening (scopeOf openTags) t with
      | error m => exact absurd (eventsFrom_error hres rest).2 (hfaultless m)
      | ok resolved => exact hnext (eventsFrom_empty hres rest) (.empty hres)
    | closing name =>
      cases openTags with
      | nil => exact absurd rfl (hfaultless _)
      | cons innermost outer =>
        by_cases hname : name = innermost.1
        · subst hname
          exact hnext (eventsFrom_closing _ _ outer rest) (.closed _)
        · exact absurd (by simp [eventsFrom, hname]) (hfaultless (.tag (.mismatchedEnd innermost.1 name)))
    | text raw => exact hnext rfl (.text raw)
    | characters => exact hnext rfl .characters
    | fault f => exact absurd rfl (hfaultless _)

theorem openings_metAs {ts : Scoped} (h : List.Forall₂ (fun p ev => MetAs p.1 p.2 ev) ts evs) :
    List.Forall₂ (fun p head => Holds p.1 p.2 head) ts.openings (evs.filterMap Event.head?) := by
  induction h with
  | nil => exact .nil
  | @cons p _ _ _ hmet _ ih =>
    obtain ⟨scope, tag⟩ := p
    cases hmet with
    | opened h => exact .cons (holds_of_resolveOpening h) ih
    | empty h => exact .cons (holds_of_resolveOpening h) ih
    | closed name => exact ih
    | text raw => exact ih
    | characters => exact ih

theorem passes_metAs {ts : Scoped} (h : List.Forall₂ (fun p ev => MetAs p.1 p.2 ev) ts evs) :
    (∀ ev ∈ evs, Building.Passes ev) ↔ (∀ raw, .text raw ∈ evs → IsWhite raw) ∧ .characters ∉ evs := by
  constructor
  · intro hpasses
    refine ⟨?_, ?_⟩
    · intro raw hraw
      exact hpasses _ hraw
    · intro hcharacters
      exact hpasses _ hcharacters
  · rintro ⟨htext, hcharacters⟩ ev hev
    obtain ⟨⟨scope, tag⟩, -, hmet⟩ := Pairing.right h hev
    cases hmet with
    | text raw => exact htext raw hev
    | characters => exact absurd hev hcharacters
    | _ => trivial

/-- What is built of tags that resolve, in whatever order they come. They are accepted exactly where they are one balanced
element with white space between its tags, and then the element is the one that they make up: its walk is theirs, and
every element in it holds the declarations and the attributes of its tag. The tags of a text are met in this way unless
one of them is at fault. -/
theorem balanced_built {ts : Scoped} (h : List.Forall₂ (fun p ev => MetAs p.1 p.2 ev) ts evs) :
    ((∃ e, Element.ofEvents evs = .ok e) ↔
      Single (evs.filter Event.isTag) ∧ (∀ raw, .text raw ∈ evs → IsWhite raw) ∧ .characters ∉ evs) ∧
    (∀ e, Element.ofEvents evs = .ok e →
      e.walk = (evs.filter Event.isTag).flatMap Event.spread ∧
      List.Forall₂ (fun p head => Holds p.1 p.2 head) ts.openings e.heads) ∧
    ∀ text : List Tag, (∀ m, .fault m ∉ events text) →
      ∃ placed : Scoped, placed.map Prod.snd = text ∧
        List.Forall₂ (fun p ev => MetAs p.1 p.2 ev) placed (events text) := by
  refine ⟨?_, ?_, ?_⟩
  · simp only [ofEvents_eq_ok_iff, exists_and_right, single_iff, passes_metAs h]
  · intro e hok
    have hwalk := (ofEvents_eq_ok_iff.mp hok).1.walkAll
    rw [Element.walkAll, Element.walkAll, List.append_nil] at hwalk
    refine ⟨hwalk, ?_⟩
    rw [heads_ofEvents hok]
    exact openings_metAs h
  · intro text hfaultless
    exact eventsFrom_metAs hfaultless

theorem balanced_built_nested :
    Single [Event.opened ⟨none, "a", [("p", "u")], [⟨none, "x", "1"⟩]⟩, .empty ⟨some "u", "b", [], []⟩, .closed] := by
  have hmet : List.Forall₂ (fun p ev => MetAs p.1 p.2 ev)
      [(outermost, .opening ⟨"a", [("xmlns:p", "u"), ("x", "1")], true⟩), (("p", "u") :: outermost, .text " "),
        (("p", "u") :: outermost, .empty ⟨"p:b", [], true⟩), (("p", "u") :: outermost, .closing "a")]
      [.opened ⟨none, "a", [("p", "u")], [⟨none, "x", "1"⟩]⟩, .text " ", .empty ⟨some "u", "b", [], []⟩, .closed] :=
    .cons (.opened rfl) (.cons (.text _) (.cons (.empty rfl) (.cons (.closed _) .nil)))
  exact ((balanced_built hmet).1.mp ⟨_, rfl⟩).1

end DocWire.Markup
