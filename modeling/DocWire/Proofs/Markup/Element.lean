/-
  DocWire.Proofs.Markup.Element — a written element is the element that its text holds.

  The lines of an element are its tags (`tagsOf`), spread over the text. Tags with resolved names are events
  that build the element (`Resolved`, `build`): an element is attached to what is open around it, whatever
  that is, so its children are attached to it in turn.

  Below the top no element declares a prefix, so one scope holds for all of them: `Plain` says what their
  names must be, and `elementIn` is what they are then read as.
-/

import DocWire.Proofs.Markup.Tag
import DocWire.Proofs.Outcome
import DocWire.Proofs.Pairing
import Mathlib.Data.List.TakeWhile

namespace DocWire.Markup

open Text (isMarkupSpace)

/-! ## Tags -/

mutual

def tagsOf : Written → List Tag
  | .mk name attrs [] => [.empty (openingOf name attrs)]
  | .mk name attrs (child :: rest) =>
    .opening (openingOf name attrs) :: (tagsOf child ++ (tagsOfAll rest ++ [.closing name]))

def tagsOfAll : List Written → List Tag
  | [] => []
  | e :: rest => tagsOf e ++ tagsOfAll rest

end

mutual

def WellNamed : Written → Prop
  | .mk name attrs children => ElementText name ∧ (∀ a ∈ attrs, Unbroken a.1) ∧ AllNamed children

def AllNamed : List Written → Prop
  | [] => True
  | e :: rest => WellNamed e ∧ AllNamed rest

end

abbrev ReadAs (lines : List (Nat × String)) (ts : List Tag) : Prop :=
  List.Forall₂ Reads (lines.map (·.2.toList)) (ts.map some)

theorem ReadAs.append {ls ls' : List (Nat × String)} {ts ts' : List Tag} (h : ReadAs ls ts) (h' : ReadAs ls' ts') :
    ReadAs (ls ++ ls') (ts ++ ts') := by
  rw [ReadAs, List.map_append, List.map_append]
  exact List.rel_append h h'

mutual

theorem lines_readAs : ∀ (depth : Nat) (e : Written), WellNamed e → ReadAs (Written.lines depth e) (tagsOf e)
  | depth, .mk name attrs [], h => .cons (reads_empty h.1 h.2.1) .nil
  | depth, .mk name attrs (child :: rest), h => by
    obtain ⟨hn, ha, hchild, hrest⟩ := h
    refine .cons (reads_opening hn ha) ?_
    exact (lines_readAs (depth + 1) child hchild).append
      ((linesOfAll_readAs (depth + 1) rest hrest).append (.cons (reads_closing hn.unbroken) .nil))

theorem linesOfAll_readAs : ∀ (depth : Nat) (es : List Written), AllNamed es →
    ReadAs (Written.linesOfAll depth es) (tagsOfAll es)
  | _, [], _ => .nil
  | depth, e :: rest, h => (lines_readAs depth e h.1).append (linesOfAll_readAs depth rest h.2)

end

/-! ## The text -/

theorem Spread.behind {pieces : List (List Char)} {s space : List Char} (h : Spread pieces s) (hne : pieces ≠ [])
    (hspace : ∀ c ∈ space, isMarkupSpace c = true) : Spread pieces (space ++ s) := by
  cases h with
  | nil => exact absurd rfl hne
  | cons hs hrest =>
    rename_i space' piece rest pieces
    have hboth : Spread (piece :: pieces) (space ++ space' ++ piece ++ rest) :=
      .cons (fun c hc => (List.mem_append.mp hc).elim (hspace c) (hs c)) hrest
    simpa only [List.append_assoc] using hboth

theorem spread_join (texts : List String) : Spread (texts.map String.toList) (String.join texts).toList := by
  induction texts with
  | nil => simpa using Spread.nil
  | cons t rest ih =>
    rw [String.join_cons, String.toList_append, List.map_cons]
    have h : Spread (t.toList :: rest.map String.toList) ([] ++ t.toList ++ (String.join rest).toList) :=
      .cons (fun c hc => by cases hc) ih
    simpa using h

/-- A line behind its indentation. -/
def indented (indent : Nat) (l : Nat × String) : String := String.ofList (List.replicate (l.1 * indent) ' ') ++ l.2

theorem spread_lines (indent : Nat) (lines : List (Nat × String)) :
    Spread (lines.map (·.2.toList)) ("\n".intercalate (lines.map (indented indent))).toList := by
  have hspaces : ∀ n, ∀ c ∈ List.replicate n ' ', isMarkupSpace c = true := fun n c hc => by
    rw [(List.mem_replicate.mp hc).2]
    rfl
  have hnl : ∀ c ∈ ['\n'], isMarkupSpace c = true := fun c hc => by
    rw [List.mem_singleton.mp hc]
    rfl
  induction lines with
  | nil => simpa using Spread.nil
  | cons l rest ih =>
    rw [List.map_cons, List.map_cons]
    by_cases hrest : rest = []
    · rw [hrest, List.map_nil, List.map_nil, String.intercalate_singleton, indented, String.toList_append,
        String.toList_ofList]
      have h : Spread [l.2.toList] (List.replicate (l.1 * indent) ' ' ++ l.2.toList ++ []) := .cons (hspaces _) .nil
      simpa using h
    · rw [String.intercalate_cons_of_ne_nil (by simpa using hrest), String.toList_append, String.toList_append, indented,
        String.toList_append, String.toList_ofList, List.append_assoc]
      exact .cons (hspaces _) (ih.behind (by simpa using hrest) hnl)

theorem Spread.length_le {pieces : List (List Char)} {s : List Char} (h : Spread pieces s)
    (hne : ∀ p ∈ pieces, p ≠ []) : pieces.length ≤ s.length := by
  induction h with
  | nil => exact Nat.le_refl 0
  | cons hs hrest ih =>
    rename_i space piece rest pieces
    have hpos := List.length_pos_iff.mpr (hne piece List.mem_cons_self)
    have := ih fun p hp => hne p (List.mem_cons_of_mem _ hp)
    simp only [List.length_append, List.length_cons]
    omega

theorem Reads.ne_nil {text : List Char} {tag? : Option Tag} (h : Reads text tag?) : text ≠ [] := by
  obtain ⟨body, rfl, -⟩ := h
  exact List.cons_ne_nil _ _

theorem dropMark_spread {pieces : List (List Char)} {s : List Char} {ts : List (Option Tag)} (h : Spread pieces s)
    (hr : List.Forall₂ Reads pieces ts) : dropMark s = s := by
  unfold dropMark
  split
  · rename_i rest
    exfalso
    generalize hs : '\ufeff' :: rest = s at h
    cases h with
    | nil => cases hs
    | cons hspace hrest =>
      rename_i space piece rest' pieces
      cases hr with
      | cons hread _ =>
        obtain ⟨body, rfl, -⟩ := hread
        cases space with
        | nil => cases hs
        | cons c space =>
          cases hs
          have := hspace _ List.mem_cons_self
          exact absurd this (by decide)
  · rfl

/-- The tags of a written text, in whatever layout. -/
theorem tags_text {e : Written} (h : WellNamed e) (indent : Nat) (declared : Bool) :
    dropMark (e.text indent declared).toList = (e.text indent declared).toList ∧
      tags (e.text indent declared).toList = tagsOf e := by
  let all := (if declared then [(0, Written.declaration)] else []) ++ Written.lines 0 e
  let ts : List (Option Tag) := (if declared then [none] else []) ++ (tagsOf e).map some
  have hreads : List.Forall₂ Reads (all.map (·.2.toList)) ts := by
    rw [List.map_append]
    refine List.rel_append ?_ (lines_readAs 0 e h)
    cases declared with
    | true => exact .cons reads_declaration .nil
    | false => exact .nil
  have hspread : Spread (all.map (·.2.toList)) (e.text indent declared).toList := by
    unfold Written.text
    simp only
    split
    · have := spread_join (all.map (·.2))
      rwa [List.map_map] at this
    · exact spread_lines indent all
  refine ⟨dropMark_spread hspread hreads, ?_⟩
  have hlen := hspread.length_le fun p hp => by
    obtain ⟨tag?, -, hread⟩ := Pairing.left hreads hp
    exact hread.ne_nil
  rw [tags, tagsFrom_spread hspread hreads (by omega), List.filterMap_append]
  cases declared <;> simp

/-! ## Events -/

mutual

/-- A written element is read as an element where prefixes are bound by `scope`. -/
def Resolved (scope : Scope) : Written → Element → Prop
  | .mk name attrs children, .mk head es =>
    ∃ inner, resolveOpening scope (openingOf name attrs) = .ok (head, inner) ∧ ResolvedAll inner children es

def ResolvedAll (scope : Scope) : List Written → List Element → Prop
  | [], [] => True
  | w :: ws, e :: es => Resolved scope w e ∧ ResolvedAll scope ws es
  | _, _ => False

end

def scopeOf : List (String × Scope) → Scope
  | (_, scope) :: _ => scope
  | [] => outermost

theorem eventsFrom_opening {openTags : List (String × Scope)} {t : Opening} {head : Head} {inner : Scope}
    (h : resolveOpening (scopeOf openTags) t = .ok (head, inner)) (rest : List Tag) :
    eventsFrom openTags (.opening t :: rest) = .opened head :: eventsFrom ((t.name, inner) :: openTags) rest := by
  cases openTags with
  | nil =>
    rw [scopeOf] at h
    simp only [eventsFrom, h]
  | cons outer more =>
    rw [scopeOf] at h
    simp only [eventsFrom, h]

theorem eventsFrom_empty {openTags : List (String × Scope)} {t : Opening} {head : Head} {inner : Scope}
    (h : resolveOpening (scopeOf openTags) t = .ok (head, inner)) (rest : List Tag) :
    eventsFrom openTags (.empty t :: rest) = .empty head :: eventsFrom openTags rest := by
  cases openTags with
  | nil =>
    rw [scopeOf] at h
    simp only [eventsFrom, h]
  | cons outer more =>
    rw [scopeOf] at h
    simp only [eventsFrom, h]

theorem eventsFrom_closing (name : String) (scope : Scope) (openTags : List (String × Scope)) (rest : List Tag) :
    eventsFrom ((name, scope) :: openTags) (.closing name :: rest) = .closed :: eventsFrom openTags rest := by
  simp [eventsFrom]

mutual

/-- The tags of an element are events that attach it to what is open. -/
theorem build : ∀ (w : Written) (e : Element) (openTags : List (String × Scope)),
    Resolved (scopeOf openTags) w e → ∃ evs : List Event,
      (∀ rest, eventsFrom openTags (tagsOf w ++ rest) = evs ++ eventsFrom openTags rest) ∧
      ∀ b : Building, evs.foldlM Building.step b = b.attach e
  | .mk name attrs [], .mk head [], openTags, h => by
    obtain ⟨inner, hres, -⟩ := h
    exact ⟨[.empty head], fun rest => eventsFrom_empty hres rest, fun b => bind_pure _⟩
  | .mk name attrs [], .mk head (e :: es), openTags, h => by
    obtain ⟨inner, -, hall⟩ := h
    cases hall
  | .mk name attrs (child :: rest), .mk head es, openTags, h => by
    obtain ⟨inner, hres, hall⟩ := h
    obtain ⟨evs, hevs, hsteps⟩ := buildAll (child :: rest) es ((name, inner) :: openTags) hall
    refine ⟨.opened head :: (evs ++ [.closed]), fun more => ?_, fun b => ?_⟩
    · show eventsFrom openTags (.opening (openingOf name attrs) :: (tagsOf child ++ (tagsOfAll rest ++
        [.closing name]) ++ more)) = _
      have := hevs (.closing name :: more)
      rw [tagsOfAll, eventsFrom_closing] at this
      rw [eventsFrom_opening hres]
      simpa [openingOf] using this
    · have hopened := hsteps head [] b.stack b.root
      rw [List.foldlM_cons]
      show (evs ++ [Event.closed]).foldlM Building.step ⟨(head, []) :: b.stack, b.root⟩ = _
      rw [List.foldlM_append, hopened, List.append_nil]
      show (b.attach (.mk head es.reverse.reverse)) >>= pure = _
      rw [List.reverse_reverse, bind_pure]

theorem buildAll : ∀ (ws : List Written) (es : List Element) (openTags : List (String × Scope)),
    ResolvedAll (scopeOf openTags) ws es → ∃ evs : List Event,
      (∀ rest, eventsFrom openTags (tagsOfAll ws ++ rest) = evs ++ eventsFrom openTags rest) ∧
      ∀ head done outer root, evs.foldlM Building.step ⟨(head, done) :: outer, root⟩ =
        .ok ⟨(head, es.reverse ++ done) :: outer, root⟩
  | [], [], openTags, _ => ⟨[], fun _ => rfl, fun _ _ _ _ => rfl⟩
  | w :: ws, e :: es, openTags, h => by
    obtain ⟨evs, hevs, hstep⟩ := build w e openTags h.1
    obtain ⟨more, hmore, hsteps⟩ := buildAll ws es openTags h.2
    refine ⟨evs ++ more, fun rest => ?_, fun head done outer root => ?_⟩
    · rw [tagsOfAll, List.append_assoc, hevs, hmore, List.append_assoc]
    · rw [List.foldlM_append, hstep]
      show more.foldlM Building.step ⟨(head, e :: done) :: outer, root⟩ = _
      rw [hsteps, List.reverse_cons, List.append_assoc]
      rfl
  | [], e :: es, openTags, h => by cases h
  | w :: ws, [], openTags, h => by cases h

end

/-- A text holds the element that was written to it. -/
theorem ofText_text {w : Written} {e : Element} (hn : WellNamed w) (h : Resolved outermost w e) (indent : Nat)
    (declared : Bool) : Element.ofText (dropMark (w.text indent declared).toList) = .ok e := by
  obtain ⟨hmark, htags⟩ := tags_text hn indent declared
  obtain ⟨evs, hevs, hstep⟩ := build w e [] h
  have hevents : events (tagsOf w) = evs := by
    have := hevs []
    rwa [List.append_nil, eventsFrom, List.append_nil] at this
  rw [Element.ofText, hmark, hmark, htags, hevents, Element.ofEvents, hstep]
  rfl

/-! ## Names -/

/-- A name in no namespace of its own, and no declaration. -/
def Simple (name : String) : Prop := NameText name ∧ ':' ∉ name.toList ∧ name ≠ "xmlns"

instance (name : String) : Decidable (Simple name) :=
  inferInstanceAs (Decidable (NameText name ∧ ':' ∉ name.toList ∧ name ≠ "xmlns"))

theorem splitPrefix_simple {name : String} (h : ':' ∉ name.toList) : splitPrefix name = (none, name) := by
  have hdrop : name.toList.dropWhile (· != ':') = [] := by
    rw [List.dropWhile_eq_nil_iff]
    intro c hc
    rw [bne_iff_ne]
    rintro rfl
    exact h hc
  simp only [splitPrefix, hdrop]

theorem splitPrefix_prefixed {p : String} (h : ':' ∉ p.toList) (name : String) :
    splitPrefix (p ++ ":" ++ name) = (some p, name) := by
  have hall : ∀ c ∈ p.toList, (c != ':') = true := fun c hc => by
    rw [bne_iff_ne]
    rintro rfl
    exact h hc
  have htext : (p ++ ":" ++ name).toList = p.toList ++ ':' :: name.toList := by simp
  have hdrop : (p.toList ++ ':' :: name.toList).dropWhile (· != ':') = ':' :: name.toList := by
    rw [List.dropWhile_append_of_pos hall, List.dropWhile_cons, if_neg (by decide)]
  have htake : (p.toList ++ ':' :: name.toList).takeWhile (· != ':') = p.toList := by
    rw [List.takeWhile_append_of_pos hall, List.takeWhile_cons, if_neg (by decide), List.append_nil]
  simp only [splitPrefix, htext, hdrop, htake, String.ofList_toList]

theorem declaredPrefix?_simple {name : String} (h : Simple name) : declaredPrefix? name = none := by
  simp only [declaredPrefix?, splitPrefix_simple h.2.1, beq_iff_eq, h.2.2, if_false]

theorem declaredPrefix?_declaration (p : String) : declaredPrefix? ("xmlns:" ++ p) = some p := by
  have hne : "xmlns:" ++ p ≠ "xmlns" := by
    intro h
    have := congrArg (·.toList.length) h
    simp at this
  have hsplit := splitPrefix_prefixed (p := "xmlns") (by decide) p
  rw [show "xmlns" ++ ":" = "xmlns:" by decide] at hsplit
  simp only [declaredPrefix?, beq_iff_eq, hne, if_false, hsplit]

/-! ## Opening tags -/

theorem declare_undeclaring {attrs : List (String × String)} (h : ∀ a ∈ attrs, declaredPrefix? a.1 = none)
    (scope : Scope) : declare scope attrs = .ok scope := by
  induction attrs with
  | nil => rfl
  | cons a rest ih =>
    have ha := h a List.mem_cons_self
    rw [declare, ha]
    exact ih fun b hb => h b (List.mem_cons_of_mem _ hb)

/-- Attributes as they are written and as they are read. -/
def writtenAttributes (attrs : List (String × String)) : List (String × String) := attrs.map fun a => (a.1, escape a.2)

def readAs (attrs : List (String × String)) : List Attribute := attrs.map fun a => ⟨none, a.1, a.2⟩

theorem declare_written {attrs : List (String × String)} (h : ∀ a ∈ attrs, declaredPrefix? a.1 = none) (scope : Scope) :
    declare scope (writtenAttributes attrs) = .ok scope := by
  refine declare_undeclaring ?_ scope
  intro a ha
  obtain ⟨b, hb, rfl⟩ := List.mem_map.mp ha
  exact h b hb

theorem addAttributes_simple {attrs : List (String × String)} (h : ∀ a ∈ attrs, Simple a.1) (scope : Scope) :
    ∀ (head : Head) (seen : List String), (attrs.map (·.1)).Nodup → (∀ a ∈ attrs, a.1 ∉ seen) →
      addAttributes scope head seen (writtenAttributes attrs) =
        .ok { head with attributes := head.attributes ++ readAs attrs } := by
  induction attrs with
  | nil =>
    intro head seen _ _
    simp [addAttributes, writtenAttributes, readAs]
  | cons a rest ih =>
    obtain ⟨name, value⟩ := a
    intro head seen hnd hseen
    have ha : Simple name := h (name, value) List.mem_cons_self
    have hnot : seen.contains name = false := by
      have := hseen (name, value) List.mem_cons_self
      simpa using this
    obtain ⟨hname, hnd⟩ := List.nodup_cons.mp hnd
    have hrest := ih (fun b hb => h b (List.mem_cons_of_mem _ hb))
      { head with attributes := head.attributes ++ [⟨none, name, value⟩] } (name :: seen) hnd fun b hb hmem => by
        rcases List.mem_cons.mp hmem with he | hmem
        · exact hname (List.mem_map.mpr ⟨b, hb, he⟩)
        · exact hseen b (List.mem_cons_of_mem _ hb) hmem
    have hattr : resolveAttribute scope name value = .ok ⟨none, name, value⟩ := by
      rw [resolveAttribute, splitPrefix_simple ha.2.1]
    simp only [writtenAttributes, List.map_cons, addAttributes, hnot, unescape_escape, declaredPrefix?_simple ha, hattr]
    simp only [writtenAttributes] at hrest
    simp only [Bool.false_eq_true, if_false, hrest, readAs, List.map_cons, List.append_assoc, List.singleton_append]

/-- The name that a written one resolves to, with its namespace. -/
def nameIn (scope : Scope) (name : String) : Option String × String :=
  match splitPrefix name with
  | (none, localPart) => (defaultNamespace scope, localPart)
  | (some p, localPart) => (scope.lookup p, localPart)

theorem resolveOpening_simple {scope : Scope} {name : String} {attrs : List (String × String)}
    (hn : resolveElement scope name = .ok (nameIn scope name)) (h : ∀ a ∈ attrs, Simple a.1)
    (hnd : (attrs.map (·.1)).Nodup) :
    resolveOpening scope (openingOf name attrs) =
      .ok (⟨(nameIn scope name).1, (nameIn scope name).2, [], readAs attrs⟩, scope) := by
  have hdeclare := declare_written (fun a ha => declaredPrefix?_simple (h a ha)) scope
  have hadd := addAttributes_simple h scope ⟨(nameIn scope name).1, (nameIn scope name).2, [], []⟩ [] hnd
    fun _ _ hm => by cases hm
  simp only [openingOf_written (fun a ha => (h a ha).1), resolveOpening, writtenOpening]
  rw [show (attrs.map fun a => (a.1, escape a.2)) = writtenAttributes attrs from rfl, hdeclare]
  simp only [hn, hadd, List.nil_append, if_true]

/-! ## Elements below the top -/

mutual

def elementIn (scope : Scope) : Written → Element
  | .mk name attrs children =>
    .mk ⟨(nameIn scope name).1, (nameIn scope name).2, [], readAs attrs⟩ (elementsIn scope children)

def elementsIn (scope : Scope) : List Written → List Element
  | [] => []
  | w :: rest => elementIn scope w :: elementsIn scope rest

end

mutual

/-- Names that resolve and attributes that are told apart, here and below. -/
def Plain (scope : Scope) : Written → Prop
  | .mk name attrs children =>
    ElementText name ∧ resolveElement scope name = .ok (nameIn scope name) ∧ (∀ a ∈ attrs, Simple a.1) ∧
      (attrs.map (·.1)).Nodup ∧ AllPlain scope children

def AllPlain (scope : Scope) : List Written → Prop
  | [] => True
  | w :: rest => Plain scope w ∧ AllPlain scope rest

end

mutual

theorem Plain.wellNamed {scope : Scope} : ∀ {w : Written}, Plain scope w → WellNamed w
  | .mk _ _ _, ⟨hn, _, ha, _, hall⟩ => ⟨hn, fun a h => (ha a h).1.unbroken, AllPlain.allNamed hall⟩

theorem AllPlain.allNamed {scope : Scope} : ∀ {ws : List Written}, AllPlain scope ws → AllNamed ws
  | [], _ => trivial
  | _ :: _, ⟨hw, hall⟩ => ⟨Plain.wellNamed hw, AllPlain.allNamed hall⟩

end

mutual

theorem Plain.resolved {scope : Scope} : ∀ {w : Written}, Plain scope w → Resolved scope w (elementIn scope w)
  | .mk _ _ _, ⟨_, hname, ha, hnd, hall⟩ =>
    ⟨scope, resolveOpening_simple hname ha hnd, AllPlain.resolvedAll hall⟩

theorem AllPlain.resolvedAll {scope : Scope} : ∀ {ws : List Written}, AllPlain scope ws →
    ResolvedAll scope ws (elementsIn scope ws)
  | [], _ => trivial
  | _ :: _, ⟨hw, hall⟩ => ⟨Plain.resolved hw, AllPlain.resolvedAll hall⟩

end

/-! ## Prefixes -/

theorem nameIn_prefixed {scope : Scope} {p uri : String} (hp : ':' ∉ p.toList) (hl : scope.lookup p = some uri)
    (name : String) : nameIn scope (p ++ ":" ++ name) = (some uri, name) := by
  rw [nameIn, splitPrefix_prefixed hp]
  simp only [hl]

theorem resolveElement_prefixed {scope : Scope} {p uri : String} (hp : ':' ∉ p.toList) (hne : p ≠ "")
    (hl : scope.lookup p = some uri) (hu : uri ≠ "") (name : String) :
    resolveElement scope (p ++ ":" ++ name) = .ok (nameIn scope (p ++ ":" ++ name)) := by
  have hempty : p.isEmpty = false := by simpa using hne
  have huri : uri.isEmpty = false := by simpa using hu
  rw [nameIn_prefixed hp hl, resolveElement, splitPrefix_prefixed hp]
  simp only [lookupPrefix, hempty, hl, huri, Bool.false_eq_true, if_false, Outcome.map_ok]

theorem nameIn_simple {scope : Scope} {name : String} (h : ':' ∉ name.toList) (hd : defaultNamespace scope = none) :
    nameIn scope name = (none, name) := by
  rw [nameIn, splitPrefix_simple h]
  simp only [hd]

theorem resolveElement_simple {scope : Scope} {name : String} (h : ':' ∉ name.toList) :
    resolveElement scope name = .ok (nameIn scope name) := by
  rw [nameIn, resolveElement, splitPrefix_simple h]

/-! ## The top element -/

/-- A prefix that may be declared for a URI, whatever that is written as. -/
structure Declares (p uri : String) : Prop where
  named : ElementText p
  unreserved : p ≠ "xml" ∧ p ≠ "xmlns"
  uriUnreserved : escape uri ≠ xmlUri ∧ escape uri ≠ xmlnsUri

/-- A prefix that may be declared for a URI, which is written as it is. -/
structure Declarable (p uri : String) : Prop where
  named : ElementText p
  colonless : ':' ∉ p.toList
  equalless : '=' ∉ p.toList
  unreserved : p ≠ "xml" ∧ p ≠ "xmlns"
  uriNonempty : uri ≠ ""
  uriPlain : escape uri = uri
  uriUnreserved : uri ≠ xmlUri ∧ uri ≠ xmlnsUri

theorem Declarable.declares {p uri : String} (h : Declarable p uri) : Declares p uri :=
  ⟨h.named, h.unreserved, h.uriPlain.symm ▸ h.uriUnreserved⟩

def declarationAttributes (decls : List (String × String)) : List (String × String) :=
  decls.map fun d => ("xmlns:" ++ d.1, d.2)

/-- What prefixes are bound to where they are declared: URIs as they are written. -/
def bindings (decls : List (String × String)) : Scope := (decls.map fun d => (d.1, escape d.2)).reverse

theorem bindings_declarable {decls : List (String × String)} (h : ∀ d ∈ decls, Declarable d.1 d.2) :
    bindings decls = decls.reverse := by
  have hsame : decls.map (fun d => (d.1, escape d.2)) = decls.map id := by
    refine List.map_congr_left ?_
    intro d hd
    rw [(h d hd).uriPlain]
    rfl
  rw [bindings, hsame, List.map_id]

theorem declare_declarations {decls : List (String × String)} (h : ∀ d ∈ decls, Declares d.1 d.2) (scope : Scope)
    (rest : List (String × String)) :
    declare scope (writtenAttributes (declarationAttributes decls) ++ rest) = declare (bindings decls ++ scope) rest := by
  induction decls generalizing scope with
  | nil => rfl
  | cons d more ih =>
    obtain ⟨p, uri⟩ := d
    have hd : Declares p uri := h (p, uri) List.mem_cons_self
    have hne : ("xmlns:" ++ p == "xmlns") = false := by
      rw [beq_eq_false_iff_ne]
      intro he
      have hlength := congrArg (·.toList.length) he
      simp at hlength
    have hp : (p == "xml") = false ∧ (p == "xmlns") = false := by
      simp [hd.unreserved.1, hd.unreserved.2]
    have hu : (escape uri == xmlUri) = false ∧ (escape uri == xmlnsUri) = false := by
      simp [hd.uriUnreserved.1, hd.uriUnreserved.2]
    have hrest := ih (fun b hb => h b (List.mem_cons_of_mem _ hb)) ((p, escape uri) :: scope)
    simp only [writtenAttributes, declarationAttributes, List.map_cons, List.cons_append, declare,
      declaredPrefix?_declaration, hne, hp.1, hp.2, hu.1, hu.2, Bool.or_self, Bool.false_eq_true, if_false]
    simp only [writtenAttributes, declarationAttributes] at hrest
    rw [hrest, bindings, bindings, List.map_cons, List.reverse_cons, List.append_assoc]
    rfl

theorem addAttributes_declarations {decls : List (String × String)} (hnd : (decls.map (·.1)).Nodup) (scope : Scope)
    (rest : List (String × String)) : ∀ (head : Head) (seen : List String),
    (∀ d ∈ decls, "xmlns:" ++ d.1 ∉ seen) →
    addAttributes scope head seen (writtenAttributes (declarationAttributes decls) ++ rest) =
      addAttributes scope { head with declarations := head.declarations ++ decls }
        ((decls.map fun d => "xmlns:" ++ d.1).reverse ++ seen) rest := by
  induction decls with
  | nil =>
    intro head seen _
    simp [writtenAttributes, declarationAttributes]
  | cons d more ih =>
    obtain ⟨p, uri⟩ := d
    obtain ⟨hp, hnd⟩ := List.nodup_cons.mp hnd
    intro head seen hseen
    have hnot : seen.contains ("xmlns:" ++ p) = false := by
      have := hseen (p, uri) List.mem_cons_self
      simpa using this
    have hrest := ih hnd { head with declarations := head.declarations ++ [(p, uri)] } (("xmlns:" ++ p) :: seen)
      fun d hd hm => by
        rcases List.mem_cons.mp hm with he | hm
        · exact hp (List.mem_map.mpr ⟨d, hd, (String.append_right_inj _).mp he⟩)
        · exact hseen d (List.mem_cons_of_mem _ hd) hm
    simp only [writtenAttributes, declarationAttributes] at hrest
    simp only [writtenAttributes, declarationAttributes, List.map_cons, List.cons_append, addAttributes, hnot,
      unescape_escape, declaredPrefix?_declaration, Bool.false_eq_true, if_false, hrest, List.append_assoc,
      List.reverse_cons, List.nil_append]

/-- An element that declares its prefixes, and elements below it that declare none. -/
structure Top (name : String) (decls attrs : List (String × String)) (children : List Written) : Prop where
  named : ElementText name
  declarable : ∀ d ∈ decls, Declarable d.1 d.2
  distinct : (decls.map (·.1)).Nodup
  resolves : resolveElement (decls.reverse ++ outermost) name = .ok (nameIn (decls.reverse ++ outermost) name)
  simple : ∀ a ∈ attrs, Simple a.1
  attributes : (attrs.map (·.1)).Nodup
  children : AllPlain (decls.reverse ++ outermost) children

/-- What such an element is read as. -/
def topElement (name : String) (decls attrs : List (String × String)) (children : List Written) : Element :=
  .mk ⟨(nameIn (decls.reverse ++ outermost) name).1, (nameIn (decls.reverse ++ outermost) name).2, decls, readAs attrs⟩
    (elementsIn (decls.reverse ++ outermost) children)

theorem unbroken_declaration {p : String} (h : Unbroken p) : Unbroken ("xmlns:" ++ p) := by
  have hfront : ∀ c ∈ "xmlns:".toList, Bare c := all_chars (by decide)
  rw [Unbroken, String.toList_append]
  exact fun c hc => (List.mem_append.mp hc).elim (hfront c) (h c)

theorem nameText_declaration {p : String} (h : ElementText p) (hp : '=' ∉ p.toList) : NameText ("xmlns:" ++ p) where
  nonempty := by simp
  whole := by
    have hfront : '=' ∉ "xmlns:".toList := by decide
    intro hm
    rcases List.mem_append.mp (String.toList_append ▸ List.mem_of_mem_tail hm) with hm | hm
    · exact hfront hm
    · exact hp hm
  unbroken := unbroken_declaration h.unbroken

theorem resolveOpening_top {name : String} {decls attrs : List (String × String)} {children : List Written}
    (h : Top name decls attrs children) :
    resolveOpening outermost (openingOf name (declarationAttributes decls ++ attrs)) =
      .ok (⟨(nameIn (decls.reverse ++ outermost) name).1, (nameIn (decls.reverse ++ outermost) name).2, decls,
        readAs attrs⟩, decls.reverse ++ outermost) := by
  have hattrs : (declarationAttributes decls ++ attrs).map (fun a => (a.1, escape a.2)) =
      writtenAttributes (declarationAttributes decls) ++ writtenAttributes attrs := List.map_append
  have hfresh : ∀ a ∈ attrs, a.1 ∉ (decls.map fun d => "xmlns:" ++ d.1).reverse ++ [] := fun a ha hm => by
    rw [List.append_nil, List.mem_reverse] at hm
    obtain ⟨d, -, he⟩ := List.mem_map.mp hm
    refine (h.simple a ha).2.1 ?_
    rw [← he]
    simp
  have hnames : ∀ a ∈ declarationAttributes decls ++ attrs, NameText a.1 := by
    intro a ha
    rcases List.mem_append.mp ha with ha | ha
    · obtain ⟨d, hd, rfl⟩ := List.mem_map.mp ha
      exact nameText_declaration (h.declarable d hd).named (h.declarable d hd).equalless
    · exact (h.simple a ha).1
  simp only [openingOf_written hnames, resolveOpening, writtenOpening, hattrs]
  rw [declare_declarations (fun d hd => (h.declarable d hd).declares), bindings_declarable h.declarable,
    declare_written (fun a ha => declaredPrefix?_simple (h.simple a ha))]
  simp only [h.resolves]
  rw [addAttributes_declarations h.distinct _ _ _ _ (fun d _ hm => by cases hm),
    addAttributes_simple h.simple _ _ _ h.attributes hfresh]
  simp

/-- The text of an element with its declarations holds that element. -/
theorem ofText_top {name : String} {decls attrs : List (String × String)} {children : List Written}
    (h : Top name decls attrs children) (indent : Nat) (declared : Bool) :
    Element.ofText (dropMark ((Written.mk name (declarationAttributes decls ++ attrs) children).text indent
      declared).toList) = .ok (topElement name decls attrs children) := by
  have hwell : WellNamed (.mk name (declarationAttributes decls ++ attrs) children) := by
    refine ⟨h.named, fun a ha => ?_, AllPlain.allNamed h.children⟩
    rcases List.mem_append.mp ha with ha | ha
    · obtain ⟨d, hd, rfl⟩ := List.mem_map.mp ha
      exact unbroken_declaration (h.declarable d hd).named.unbroken
    · exact (h.simple a ha).1.unbroken
  have hres : Resolved outermost (.mk name (declarationAttributes decls ++ attrs) children)
      (topElement name decls attrs children) := ⟨_, resolveOpening_top h, AllPlain.resolvedAll h.children⟩
  exact ofText_text hwell hres indent declared

end DocWire.Markup
