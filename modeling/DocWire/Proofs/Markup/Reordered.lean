/-
  DocWire.Proofs.Markup.Reordered — elements with their attributes in another order.

  An element is reordered by moving attributes about within their own tags; names, declarations and the elements in it
  stay in place (`Element.Reordered`). A tag that is accepted has no attribute twice. An attribute in no namespace is
  known by its name as it is written, so in an element that was read two such attributes have different names
  (`namedOnce_of_ofText`); attributes in a namespace may share one, under different prefixes.
-/

import DocWire.Proofs.Markup.Balanced
import Mathlib.Data.List.Nodup

namespace DocWire.Markup

/-! ## Orders of attributes -/

/-- The same tag but for the order of its attributes. -/
structure Head.Reordered (h h' : Head) : Prop where
  ns : h'.ns = h.ns
  name : h'.name = h.name
  declarations : h'.declarations = h.declarations
  attributes : h.attributes.Perm h'.attributes

namespace Element

mutual

/-- The same element but for the order of the attributes in its tags. -/
def Reordered : Element → Element → Prop
  | .mk h es, .mk h' es' => h.Reordered h' ∧ AllReordered es es'

def AllReordered : List Element → List Element → Prop
  | [], [] => True
  | e :: es, e' :: es' => Reordered e e' ∧ AllReordered es es'
  | _, _ => False

end

theorem Reordered.head {e e' : Element} (h : e.Reordered e') : e.head.Reordered e'.head := by
  obtain ⟨head, es⟩ := e
  obtain ⟨head', es'⟩ := e'
  exact h.1

theorem Reordered.children {e e' : Element} (h : e.Reordered e') : AllReordered e.children e'.children := by
  obtain ⟨head, es⟩ := e
  obtain ⟨head', es'⟩ := e'
  exact h.2

end Element

namespace Head.Reordered

variable {h h' : Head}

theorem display_eq (hr : h.Reordered h') : h'.display = h.display := by rw [display, display, hr.ns, hr.name]

theorem isNamed_eq (hr : h.Reordered h') (ns : Option String) (name : String) :
    h'.isNamed ns name = h.isNamed ns name := by
  rw [isNamed, isNamed, hr.ns, hr.name]

end Head.Reordered

/-! ## Names of attributes -/

/-- No two attributes in no namespace have one name. -/
def Head.NamedOnce (h : Head) : Prop :=
  ∀ a ∈ h.attributes, ∀ b ∈ h.attributes, a.ns = none → b.ns = none → a.name = b.name → a = b

theorem addAttributes_distinct {scope : Scope} {attrs : List (String × String)} {head head' : Head} {seen : List String}
    (h : addAttributes scope head seen attrs = .ok head') : (attrs.map (·.1)).Nodup ∧ ∀ a ∈ attrs, a.1 ∉ seen := by
  induction attrs generalizing head seen with
  | nil => exact ⟨List.nodup_nil, fun a ha => (List.not_mem_nil ha).elim⟩
  | cons a rest ih =>
    obtain ⟨name, raw⟩ := a
    rw [addAttributes] at h
    split at h
    · cases h
    rename_i hseen
    -- the name is remembered, whichever list the attribute joins
    have hrest : ∃ head₁, addAttributes scope head₁ (name :: seen) rest = .ok head' := by
      split at h
      · cases h
      split at h
      · exact ⟨_, h⟩
      split at h
      · cases h
      · exact ⟨_, h⟩
    obtain ⟨head₁, hrest⟩ := hrest
    obtain ⟨hnodup, hnew⟩ := ih hrest
    have hnot : name ∉ seen := by simpa using hseen
    refine ⟨?_, ?_⟩
    · rw [List.map_cons, List.nodup_cons]
      refine ⟨?_, hnodup⟩
      intro hmem
      obtain ⟨b, hb, he⟩ := List.mem_map.mp hmem
      exact hnew b hb (he ▸ List.mem_cons_self)
    · intro b hb
      rcases List.mem_cons.mp hb with rfl | hb
      · exact hnot
      · exact fun hmem => hnew b hb (List.mem_cons_of_mem _ hmem)

theorem splitPrefix_none {name localPart : String} (h : splitPrefix name = (none, localPart)) : localPart = name := by
  unfold splitPrefix at h
  simp only at h
  split at h
  · cases h
  · cases h
    rfl

/-- An attribute in no namespace has the name that is written. -/
theorem name_of_resolveAttribute {scope : Scope} {name value : String} {a : Attribute}
    (h : resolveAttribute scope name value = .ok a) (hns : a.ns = none) : a.name = name := by
  unfold resolveAttribute at h
  split at h
  · rename_i localPart hsplit
    cases h
    exact splitPrefix_none hsplit
  · obtain ⟨ns, hlookup, rfl⟩ := Outcome.map_eq_ok.mp h
    obtain rfl : ns = none := hns
    unfold lookupPrefix at hlookup
    simp only at hlookup
    split at hlookup
    · split at hlookup
      · cases hlookup
      · cases hlookup
    · cases hlookup

theorem namedOnce_of_resolveOpening {scope inner : Scope} {t : Opening} {head : Head}
    (h : resolveOpening scope t = .ok (head, inner)) : head.NamedOnce := by
  unfold resolveOpening at h
  split at h
  · cases h
  split at h
  · cases h
  split at h
  · cases h
  rename_i head' hadd
  split at h
  · cases h
    obtain ⟨hdistinct, -⟩ := addAttributes_distinct hadd
    obtain ⟨ds, as, rfl, -, has⟩ := addAttributes_eq_ok hadd
    intro a ha b hb hans hbns hname
    obtain ⟨r, hr, hvalue, hresolve⟩ := Pairing.right has ha
    obtain ⟨r', hr', hvalue', hresolve'⟩ := Pairing.right has hb
    have hwritten : r.1 = r'.1 := by
      rw [← name_of_resolveAttribute hresolve hans, ← name_of_resolveAttribute hresolve' hbns, hname]
    have hsame := List.inj_on_of_nodup_map hdistinct (List.mem_of_mem_filter hr) (List.mem_of_mem_filter hr') hwritten
    subst hsame
    rw [hvalue, Except.ok.injEq] at hvalue'
    rw [← hvalue', hresolve, Except.ok.injEq] at hresolve'
    exact hresolve'
  · cases h

theorem namedOnce_metAs {scope : Scope} {tag : Tag} {ev : Event} {head : Head} (h : MetAs scope tag ev)
    (hev : ev.head? = some head) : head.NamedOnce := by
  cases h with
  | opened h | empty h =>
    cases hev
    exact namedOnce_of_resolveOpening h
  | _ => cases hev

/-- In an element that was read, every attribute in no namespace has a name of its own. -/
theorem namedOnce_of_ofText {text : List Char} {e : Element} (h : Element.ofText text = .ok e) :
    ∀ head ∈ e.heads, head.NamedOnce := by
  intro head hhead
  rw [heads_ofEvents h] at hhead
  obtain ⟨ev, hev, hbegins⟩ := List.mem_filterMap.mp hhead
  have hfaultless : ∀ m, .fault m ∉ events (tags (dropMark text)) := by
    intro m hm
    exact (ofEvents_eq_ok_iff.mp h).2 _ hm
  obtain ⟨placed, -, hall⟩ := eventsFrom_metAs hfaultless
  obtain ⟨p, -, hmet⟩ := Pairing.right hall hev
  exact namedOnce_metAs hmet hbegins

end DocWire.Markup
