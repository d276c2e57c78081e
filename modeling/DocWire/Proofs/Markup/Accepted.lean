/-
  DocWire.Proofs.Markup.Accepted — what the acceptance of a text says of what was written.

  Names are written as they are, so not every text holds the element that was written to it. Where no name ends its tag
  (`WellNamed`), the tags are those of the written elements, and then either every one of them resolves or the text is
  refused (`resolved_or_refused`): what an accepted text holds is read from the written tags (`resolved_of_ofText`). A
  tag that resolves is complete, so its attributes are those that were written (`nameText_of_resolveOpening`). If
  moreover no name declares a prefix and no attribute turns out to be in a namespace, then the attributes are told apart
  and nothing is hidden in their names (`Resolved.plain`).
-/

import DocWire.Proofs.Markup.Complete
import DocWire.Proofs.Markup.Element

namespace DocWire.Markup

/-! ## Events -/

/-- Events that build nothing, wherever they come. -/
def Refused (events : List Event) : Prop := ∀ b : Building, ∃ m, events.foldlM Building.step b = .error m

theorem refused_fault (m : Malformed) : Refused [.fault m] := by
  intro b
  exact ⟨m, rfl⟩

theorem Refused.behind {more : List Event} (h : Refused more) (events : List Event) : Refused (events ++ more) := by
  intro b
  rw [List.foldlM_append]
  cases events.foldlM Building.step b with
  | error m => exact ⟨m, rfl⟩
  | ok b' => exact h b'

variable {openTags : List (String × Scope)} {t : Opening} {m : Malformed}

theorem eventsFrom_opening_error (h : resolveOpening (scopeOf openTags) t = .error m) (rest : List Tag) :
    eventsFrom openTags (.opening t :: rest) = [.fault m] := by
  cases openTags with
  | nil =>
    rw [scopeOf] at h
    simp only [eventsFrom, h]
  | cons outer more =>
    rw [scopeOf] at h
    simp only [eventsFrom, h]

theorem eventsFrom_empty_error (h : resolveOpening (scopeOf openTags) t = .error m) (rest : List Tag) :
    eventsFrom openTags (.empty t :: rest) = [.fault m] := by
  cases openTags with
  | nil =>
    rw [scopeOf] at h
    simp only [eventsFrom, h]
  | cons outer more =>
    rw [scopeOf] at h
    simp only [eventsFrom, h]

mutual

/-- A written element is read as some element, or whatever holds its tags is refused. -/
theorem resolved_or_refused : ∀ (w : Written) (openTags : List (String × Scope)),
    (∃ e, Resolved (scopeOf openTags) w e) ∨ ∀ rest, Refused (eventsFrom openTags (tagsOf w ++ rest))
  | .mk name attrs [], openTags => by
    cases hres : resolveOpening (scopeOf openTags) (openingOf name attrs) with
    | error m =>
      refine .inr ?_
      intro rest
      rw [tagsOf, List.singleton_append, eventsFrom_empty_error hres]
      exact refused_fault m
    | ok resolved => exact .inl ⟨.mk resolved.1 [], resolved.2, hres, trivial⟩
  | .mk name attrs (child :: rest), openTags => by
    cases hres : resolveOpening (scopeOf openTags) (openingOf name attrs) with
    | error m =>
      refine .inr ?_
      intro more
      rw [tagsOf, List.cons_append, eventsFrom_opening_error hres]
      exact refused_fault m
    | ok resolved =>
      obtain ⟨head, inner⟩ := resolved
      rcases allResolved_or_refused (child :: rest) ((name, inner) :: openTags) with ⟨es, hall⟩ | hrefused
      · exact .inl ⟨.mk head es, inner, hres, hall⟩
      · refine .inr ?_
        intro more
        have hbelow := hrefused (.closing name :: more)
        have htags : tagsOf (.mk name attrs (child :: rest)) ++ more =
            .opening (openingOf name attrs) :: (tagsOfAll (child :: rest) ++ .closing name :: more) := by
          simp [tagsOf, tagsOfAll]
        rw [htags, eventsFrom_opening hres]
        exact hbelow.behind [.opened head]

theorem allResolved_or_refused : ∀ (ws : List Written) (openTags : List (String × Scope)),
    (∃ es, ResolvedAll (scopeOf openTags) ws es) ∨ ∀ rest, Refused (eventsFrom openTags (tagsOfAll ws ++ rest))
  | [], _ => .inl ⟨[], trivial⟩
  | w :: ws, openTags => by
    rcases resolved_or_refused w openTags with ⟨e, he⟩ | hrefused
    · rcases allResolved_or_refused ws openTags with ⟨es, hes⟩ | hrefused
      · exact .inl ⟨e :: es, he, hes⟩
      · refine .inr ?_
        intro rest
        obtain ⟨evs, hevs, -⟩ := build w e openTags he
        rw [tagsOfAll, List.append_assoc, hevs]
        exact (hrefused rest).behind evs
    · refine .inr ?_
      intro rest
      rw [tagsOfAll, List.append_assoc]
      exact hrefused _

end

/-- A text that is accepted holds the element that was written to it. -/
theorem resolved_of_ofText {w : Written} {e : Element} (hn : WellNamed w) {indent : Nat} {declared : Bool}
    (h : Element.ofText (dropMark (w.text indent declared).toList) = .ok e) : Resolved outermost w e := by
  rcases resolved_or_refused w [] with ⟨e', he'⟩ | hrefused
  · rw [ofText_text hn he'] at h
    cases h
    exact he'
  · obtain ⟨hmark, htags⟩ := tags_text hn indent declared
    obtain ⟨m, hm⟩ := hrefused [] Building.start
    rw [List.append_nil] at hm
    rw [Element.ofText, hmark, hmark, htags, Element.ofEvents, events, hm] at h
    cases h

/-! ## Opening tags -/

theorem colonless_of_splitPrefix {name localPart : String} (h : splitPrefix name = (none, localPart)) :
    ':' ∉ name.toList := by
  intro hm
  have hne : name.toList.dropWhile (· != ':') ≠ [] := by
    intro hnil
    have hall := List.dropWhile_eq_nil_iff.mp hnil
    simpa using hall ':' hm
  simp only [splitPrefix] at h
  split at h
  · simp at h
  · rename_i hnil
    exact hne hnil

/-- An attribute in no namespace has a name without a prefix. -/
theorem colonless_of_resolveAttribute {scope : Scope} {name value : String} {a : Attribute}
    (h : resolveAttribute scope name value = .ok a) (hns : a.ns = none) : ':' ∉ name.toList := by
  unfold resolveAttribute at h
  split at h
  · rename_i hsplit
    exact colonless_of_splitPrefix hsplit
  · obtain ⟨ns, hfound, rfl⟩ := Outcome.map_eq_ok.mp h
    unfold lookupPrefix at hfound
    simp only at hfound
    split at hfound
    · split at hfound
      · cases hfound
      · cases hfound
        cases hns
    · cases hfound

/-- An element's name resolves to what it stands for in the scope, or not at all. -/
theorem nameIn_of_resolveElement {scope : Scope} {name : String} {resolved : Option String × String}
    (h : resolveElement scope name = .ok resolved) : resolved = nameIn scope name := by
  obtain ⟨front, localPart, hsplit⟩ : ∃ front localPart, splitPrefix name = (front, localPart) := ⟨_, _, rfl⟩
  rw [resolveElement, hsplit] at h
  rw [nameIn, hsplit]
  cases front with
  | none =>
    cases h
    rfl
  | some p =>
    obtain ⟨ns, hfound, rfl⟩ := Outcome.map_eq_ok.mp h
    unfold lookupPrefix at hfound
    by_cases hempty : p.isEmpty
    · simp [hempty] at hfound
    · cases hl : scope.lookup p with
      | none => simp [hempty, hl] at hfound
      | some uri =>
        by_cases huri : uri.isEmpty
        · simp [hempty, hl, huri] at hfound
        · simp only [hempty, hl, huri, Bool.false_eq_true, if_false, Except.ok.injEq] at hfound
          simp only [hl, hfound]

/-- Attributes that are accepted have distinct names, and none has a prefix unless one is in a namespace. -/
theorem accepted_of_addAttributes {attrs : List (String × String)} (h : ∀ a ∈ attrs, declaredPrefix? a.1 = none)
    {scope : Scope} : ∀ {head : Head} {seen : List String} {head' : Head},
      addAttributes scope head seen (writtenAttributes attrs) = .ok head' →
      (attrs.map (·.1)).Nodup ∧ (∀ a ∈ attrs, a.1 ∉ seen) ∧ (∀ a ∈ head.attributes, a ∈ head'.attributes) ∧
        ((∀ a ∈ head'.attributes, a.ns = none) → ∀ a ∈ attrs, ':' ∉ a.1.toList) := by
  induction attrs with
  | nil =>
    intro head seen head' hok
    simp only [writtenAttributes, List.map_nil, addAttributes, Except.ok.injEq] at hok
    subst hok
    simp
  | cons a rest ih =>
    obtain ⟨name, value⟩ := a
    intro head seen head' hok
    have ha : declaredPrefix? name = none := h _ List.mem_cons_self
    simp only [writtenAttributes, List.map_cons, addAttributes, unescape_escape, ha] at hok
    split at hok
    · cases hok
    rename_i hseen
    split at hok
    · cases hok
    rename_i b hb
    obtain ⟨hnd, hfresh, hkept, hcolon⟩ := ih (fun a ha => h a (List.mem_cons_of_mem _ ha)) hok
    have hnot : name ∉ seen := by simpa using hseen
    refine ⟨?_, ?_, ?_, ?_⟩
    · rw [List.map_cons, List.nodup_cons]
      refine ⟨?_, hnd⟩
      intro hm
      obtain ⟨c, hc, he⟩ := List.mem_map.mp hm
      exact hfresh c hc (he ▸ List.mem_cons_self)
    · intro c hc
      rcases List.mem_cons.mp hc with rfl | hc
      · exact hnot
      · intro hm
        exact hfresh c hc (List.mem_cons_of_mem _ hm)
    · intro c hc
      exact hkept c (List.mem_append_left _ hc)
    · intro hns c hc
      rcases List.mem_cons.mp hc with rfl | hc
      · exact colonless_of_resolveAttribute hb (hns b (hkept b (List.mem_append_right _ (List.mem_singleton_self b))))
      · exact hcolon hns c hc

/-- A tag that is accepted is complete. -/
theorem complete_of_resolveOpening {scope : Scope} {resolved : Head × Scope} (h : resolveOpening scope t = .ok resolved) :
    t.complete = true := by
  unfold resolveOpening at h
  split at h
  · cases h
  split at h
  · cases h
  split at h
  · cases h
  split at h
  · assumption
  · cases h

/-- A name that can only be read as the name of an attribute, if it can be read. -/
structure Undeclaring (name : String) : Prop where
  unbroken : Unbroken name
  undeclaring : declaredPrefix? name = none

theorem Undeclaring.simple {name : String} (h : Undeclaring name) (hname : NameText name) (hcolon : ':' ∉ name.toList) :
    Simple name := by
  refine ⟨hname, hcolon, ?_⟩
  rintro rfl
  exact absurd h.undeclaring (by decide)

/-- The attributes of an accepted tag have names that are read as they were written. -/
theorem nameText_of_resolveOpening {scope : Scope} {name : String} {attrs : List (String × String)}
    {resolved : Head × Scope} (ha : ∀ a ∈ attrs, Unbroken a.1) (hone : OneUnnamed attrs)
    (h : resolveOpening scope (openingOf name attrs) = .ok resolved) : ∀ a ∈ attrs, NameText a.1 :=
  nameText_of_complete ha hone (complete_of_resolveOpening h)

/-! ## Elements -/

mutual

/-- Names that do not end their tags; no attribute declares a prefix, and at most one of an element has no name. -/
def Spelled : Written → Prop
  | .mk name attrs children =>
    ElementText name ∧ (∀ a ∈ attrs, Undeclaring a.1) ∧ OneUnnamed attrs ∧ AllSpelled children

def AllSpelled : List Written → Prop
  | [] => True
  | w :: rest => Spelled w ∧ AllSpelled rest

end

mutual

theorem Spelled.wellNamed : ∀ {w : Written}, Spelled w → WellNamed w
  | .mk _ _ _, ⟨hn, ha, _, hall⟩ => ⟨hn, fun a h => (ha a h).unbroken, AllSpelled.allNamed hall⟩

theorem AllSpelled.allNamed : ∀ {ws : List Written}, AllSpelled ws → AllNamed ws
  | [], _ => trivial
  | _ :: _, ⟨hw, hall⟩ => ⟨Spelled.wellNamed hw, AllSpelled.allNamed hall⟩

end

theorem AllSpelled.append {ws more : List Written} (h : AllSpelled ws) (hmore : AllSpelled more) :
    AllSpelled (ws ++ more) := by
  induction ws with
  | nil => exact hmore
  | cons w rest ih => exact ⟨h.1, ih h.2⟩

mutual

/-- No attribute is in a namespace, here or below. -/
def Prefixless : Element → Prop
  | .mk head children => (∀ a ∈ head.attributes, a.ns = none) ∧ AllPrefixless children

def AllPrefixless : List Element → Prop
  | [] => True
  | e :: rest => Prefixless e ∧ AllPrefixless rest

end

mutual

/-- What is read without a prefix on any attribute is what was written. -/
theorem Resolved.plain {scope : Scope} : ∀ {w : Written} {e : Element}, Spelled w → Resolved scope w e → Prefixless e →
    Plain scope w ∧ e = elementIn scope w
  | .mk name attrs children, .mk head es, hspelled, hres, hless => by
    obtain ⟨hname, hattrs, hone, hbelow⟩ := hspelled
    obtain ⟨inner, hopening, hall⟩ := hres
    have hdeclare := declare_written (fun a ha => (hattrs a ha).undeclaring) scope
    have hnames := nameText_of_resolveOpening (fun a ha => (hattrs a ha).unbroken) hone hopening
    have hok := hopening
    simp only [openingOf_written hnames, resolveOpening, writtenOpening] at hok
    rw [show (attrs.map fun a => (a.1, escape a.2)) = writtenAttributes attrs from rfl, hdeclare] at hok
    simp only at hok
    split at hok
    · cases hok
    rename_i ns localPart hresolve
    split at hok
    · cases hok
    rename_i head' hadd
    simp only [if_true, Except.ok.injEq, Prod.mk.injEq] at hok
    obtain ⟨rfl, rfl⟩ := hok
    obtain ⟨hnd, -, -, hcolon⟩ := accepted_of_addAttributes (fun a ha => (hattrs a ha).undeclaring) hadd
    have hsimple : ∀ a ∈ attrs, Simple a.1 := fun a ha => (hattrs a ha).simple (hnames a ha) (hcolon hless.1 a ha)
    have hnameIn : resolveElement scope name = .ok (nameIn scope name) := by
      rw [hresolve, nameIn_of_resolveElement hresolve]
    obtain ⟨hplain, rfl⟩ := AllResolved.plain hbelow hall hless.2
    have hhead := (resolveOpening_simple hnameIn hsimple hnd).symm.trans hopening
    cases hhead
    exact ⟨⟨hname, hnameIn, hsimple, hnd, hplain⟩, rfl⟩

theorem AllResolved.plain {scope : Scope} : ∀ {ws : List Written} {es : List Element}, AllSpelled ws →
    ResolvedAll scope ws es → AllPrefixless es → AllPlain scope ws ∧ es = elementsIn scope ws
  | [], [], _, _, _ => ⟨trivial, rfl⟩
  | [], _ :: _, _, hres, _ => by cases hres
  | _ :: _, [], _, hres, _ => by cases hres
  | w :: ws, e :: es, hspelled, hres, hless => by
    obtain ⟨hone, rfl⟩ := Resolved.plain hspelled.1 hres.1 hless.1
    obtain ⟨hmore, rfl⟩ := AllResolved.plain hspelled.2 hres.2 hless.2
    exact ⟨⟨hone, hmore⟩, rfl⟩

end

/-! ## The top element -/

/-- An opening tag with declarations that is read without a prefix on any other attribute. -/
theorem accepted_declaring {name : String} {decls attrs : List (String × String)} (hd : ∀ d ∈ decls, Declares d.1 d.2)
    (hdistinct : (decls.map (·.1)).Nodup) (ha : ∀ a ∈ attrs, Undeclaring a.1) (hone : OneUnnamed attrs) {head : Head}
    {inner : Scope}
    (h : resolveOpening outermost (openingOf name (declarationAttributes decls ++ attrs)) = .ok (head, inner))
    (hns : ∀ a ∈ head.attributes, a.ns = none) :
    inner = bindings decls ++ outermost ∧
      head = ⟨(nameIn inner name).1, (nameIn inner name).2, decls, readAs attrs⟩ ∧ (∀ a ∈ attrs, Simple a.1) ∧
      (attrs.map (·.1)).Nodup := by
  have hattrs : (declarationAttributes decls ++ attrs).map (fun a => (a.1, escape a.2)) =
      writtenAttributes (declarationAttributes decls) ++ writtenAttributes attrs := List.map_append
  have hundeclaring : ∀ a ∈ attrs, declaredPrefix? a.1 = none := fun a hm => (ha a hm).undeclaring
  have hnames : ∀ a ∈ declarationAttributes decls ++ attrs, NameText a.1 := by
    refine nameText_of_resolveOpening ?_ (hone.behind ?_) h
    · intro a hm
      rcases List.mem_append.mp hm with hm | hm
      · obtain ⟨d, hdecl, rfl⟩ := List.mem_map.mp hm
        exact unbroken_declaration (hd d hdecl).named.unbroken
      · exact (ha a hm).unbroken
    · intro a hm
      obtain ⟨d, hdecl, rfl⟩ := List.mem_map.mp hm
      simp
  simp only [openingOf_written hnames, resolveOpening, writtenOpening, hattrs] at h
  rw [declare_declarations hd, declare_written hundeclaring] at h
  simp only at h
  split at h
  · cases h
  rename_i ns localPart hresolve
  split at h
  · cases h
  rename_i head' hadd
  simp only [if_true, Except.ok.injEq, Prod.mk.injEq] at h
  obtain ⟨rfl, rfl⟩ := h
  rw [addAttributes_declarations hdistinct _ _ _ _ (fun d _ hm => by cases hm)] at hadd
  obtain ⟨hnd, hfresh, -, hcolon⟩ := accepted_of_addAttributes hundeclaring hadd
  have hsimple : ∀ a ∈ attrs, Simple a.1 := fun a hm =>
    (ha a hm).simple (hnames a (List.mem_append_right _ hm)) (hcolon hns a hm)
  rw [addAttributes_simple hsimple _ _ _ hnd hfresh] at hadd
  cases hadd
  refine ⟨rfl, ?_, hsimple, hnd⟩
  rw [← nameIn_of_resolveElement hresolve]
  simp

/-- A text with declarations at its top that is read without a prefix on any other attribute: it holds what was
written, where prefixes are bound to the URIs as they are written. -/
theorem ofText_declaring {name : String} {decls attrs : List (String × String)} {children : List Written}
    (hname : ElementText name) (hd : ∀ d ∈ decls, Declares d.1 d.2) (hdistinct : (decls.map (·.1)).Nodup)
    (ha : ∀ a ∈ attrs, Undeclaring a.1) (hone : OneUnnamed attrs) (hchildren : AllSpelled children) {indent : Nat}
    {declared : Bool} {e : Element}
    (h : Element.ofText (dropMark ((Written.mk name (declarationAttributes decls ++ attrs) children).text indent
      declared).toList) = .ok e) (hless : Prefixless e) :
    e = .mk ⟨(nameIn (bindings decls ++ outermost) name).1, (nameIn (bindings decls ++ outermost) name).2, decls,
        readAs attrs⟩ (elementsIn (bindings decls ++ outermost) children) ∧
      (∀ a ∈ attrs, Simple a.1) ∧ (attrs.map (·.1)).Nodup ∧ AllPlain (bindings decls ++ outermost) children := by
  have hwell : WellNamed (.mk name (declarationAttributes decls ++ attrs) children) := by
    refine ⟨hname, ?_, hchildren.allNamed⟩
    intro a hm
    rcases List.mem_append.mp hm with hm | hm
    · obtain ⟨d, hdecl, rfl⟩ := List.mem_map.mp hm
      exact unbroken_declaration (hd d hdecl).named.unbroken
    · exact (ha a hm).unbroken
  have hres := resolved_of_ofText hwell h
  cases e with
  | mk head es =>
    obtain ⟨inner, hopening, hall⟩ := hres
    obtain ⟨rfl, rfl, hsimple, hnd⟩ := accepted_declaring hd hdistinct ha hone hopening hless.1
    obtain ⟨hplain, rfl⟩ := AllResolved.plain hchildren hall hless.2
    exact ⟨rfl, hsimple, hnd, hplain⟩

end DocWire.Markup
