/-
  DocWire.Proofs.Xml.Elements — what the elements of documents and of parameter sets have in common.

  An element's attributes are those that only help a reader without a schema (`Advice`), and behind them
  one for every set field. The advice is passed over and the fields come back by their own names.

  The names of elements have the prefix of the message, or none. Below a top element the prefix is bound to
  the namespace of the message, and there is no default namespace (`Bound`), so either is read as it was
  meant.
-/

import DocWire.Proofs.Field.Entry
import DocWire.Proofs.Pairing
import DocWire.Proofs.Xml.Names
import DocWire.Xml.Decode
import DocWire.Xml.Encode

namespace DocWire.Xml

open Markup (AllPlain Bare Declarable Element ElementText Head Plain Scope Simple Unbroken Written elementIn elementsIn
  nameIn readAs resolveElement)

/-- The attribute of an entry. -/
def attributeOf (e : FieldDecl × Value) : String × String := (Name.escape e.1.name, wireOf e)

theorem fieldAttributes_ok {entries : List (FieldDecl × Value)} {attrs : Attributes}
    (h : fieldAttributes entries = .ok attrs) : attrs = entries.map attributeOf ∧ ∀ e ∈ entries, Encodes e := by
  have hall := Pairing.of_mapM h
  clear h
  induction hall with
  | nil => exact ⟨rfl, fun e he => by cases he⟩
  | @cons e a _ _ ha _ ih =>
    obtain ⟨decl, value⟩ := e
    simp only at ha
    split at ha
    · rename_i wire hw
      cases ha
      obtain ⟨-, -, rfl⟩ := Coercion.encode_eq_ok.mp hw
      refine ⟨congrArg _ ih.1, fun e he => ?_⟩
      rcases List.mem_cons.mp he with rfl | he
      · exact hw
      · exact ih.2 e he
    · cases ha

/-- Attributes that only help a reader without a schema. -/
def Advice (attrs : Attributes) : Prop := ∀ a ∈ attrs, a.1 = "parent" ∨ a.1 = "document"

theorem advice_parent (path : String) : Advice [("parent", path)] := fun a ha => by
  rw [List.mem_singleton.mp ha]
  exact .inl rfl

theorem advice_both (path docPath : String) : Advice [("parent", path), ("document", docPath)] := fun a ha => by
  rcases List.mem_cons.mp ha with rfl | ha
  · exact .inl rfl
  · rw [List.mem_singleton.mp ha]
    exact .inr rfl

theorem isAdvisory_iff {name value : String} :
    isAdvisory ⟨none, name, value⟩ = true ↔ name = "parent" ∨ name = "document" := by
  rw [isAdvisory, Bool.or_eq_true, beq_iff_eq, beq_iff_eq]

theorem checkAdvisory_advice {h : Head} {advice : Attributes} (ha : Advice advice) (he : h.attributes = readAs advice) :
    checkAdvisory h = .ok () := by
  have hnone : h.attributes.find? (fun a => a.ns.isSome || !isAdvisory a) = none := by
    rw [List.find?_eq_none, he]
    intro a hm
    obtain ⟨b, hb, rfl⟩ := List.mem_map.mp hm
    simp [isAdvisory_iff.mpr (ha b hb)]
  rw [checkAdvisory, hnone]

variable {σ : Type} {set : σ → String → String → Except ModelError σ} {entries : List (FieldDecl × Value)}

/-- Sets entries from their wire strings, one after the other. -/
def setEntries (set : σ → String → String → Except ModelError σ) (state : σ) (entries : List (FieldDecl × Value)) :
    Except XmlError σ :=
  entries.foldlM (fun state e => (set state e.1.name (wireOf e)).mapError .model) state

/-- What an attribute does. -/
def applyAttribute (set : σ → String → String → Except ModelError σ) (h : Head) (state : σ) (a : Markup.Attribute) :
    Except XmlError σ :=
  if a.ns.isSome then .error (unexpectedAttribute h a)
  else if isAdvisory a then .ok state
  else (set state (Name.unescape a.name) a.value).mapError .model

theorem foldlM_advice {advice : Attributes} (ha : Advice advice) (h : Head) (state : σ) :
    (readAs advice).foldlM (applyAttribute set h) state = .ok state := by
  refine Outcome.foldlM_stays fun b hb => ?_
  obtain ⟨a, hm, rfl⟩ := List.mem_map.mp hb
  have hadv : isAdvisory ⟨none, a.1, a.2⟩ = true := isAdvisory_iff.mpr (ha a hm)
  simp only [applyAttribute, hadv, if_true, Option.isSome_none, Bool.false_eq_true, if_false]

/-- An attribute with the escaped name of a field sets the field. -/
theorem applyAttribute_field {name : String} (hname : Legible name) (h : Head) (state : σ) (text : String) :
    applyAttribute set h state ⟨none, Name.escape name, text⟩ = (set state name text).mapError .model := by
  have hadv : isAdvisory ⟨none, Name.escape name, text⟩ = false := by
    rw [Bool.eq_false_iff, Ne, isAdvisory_iff]
    exact fun he => he.elim hname.escape_ne.1 hname.escape_ne.2
  simp only [applyAttribute, hadv, Option.isSome_none, Bool.false_eq_true, if_false, Name.unescape_escape hname.markless]

theorem foldlM_entries (hread : ∀ e ∈ entries, Legible e.1.name) (h : Head) (state : σ) :
    (readAs (entries.map attributeOf)).foldlM (applyAttribute set h) state = setEntries set state entries := by
  induction entries generalizing state with
  | nil => rfl
  | cons e rest ih =>
    have hstep : applyAttribute set h state ⟨none, Name.escape e.1.name, wireOf e⟩ =
        (set state e.1.name (wireOf e)).mapError .model := applyAttribute_field (hread e List.mem_cons_self) h state _
    rw [setEntries, List.foldlM_cons, ← hstep, List.map_cons, attributeOf, readAs, List.map_cons, List.foldlM_cons]
    refine congrArg _ (funext fun state => ?_)
    exact ih (fun e he => hread e (List.mem_cons_of_mem _ he)) state

/-- Of the attributes of an element, the fields are set and the advice is passed over. -/
theorem applyAttributes_entries {advice : Attributes} (ha : Advice advice)
    (hread : ∀ e ∈ entries, Legible e.1.name) {h : Head}
    (he : h.attributes = readAs (advice ++ entries.map attributeOf)) (state : σ) :
    applyAttributes set h state = setEntries set state entries := by
  show h.attributes.foldlM (applyAttribute set h) state = _
  rw [he, readAs, List.map_append, List.foldlM_append]
  show (readAs advice).foldlM (applyAttribute set h) state >>= _ = _
  rw [foldlM_advice ha]
  exact foldlM_entries hread h state

/-! ## Attributes that are told apart -/

theorem Advice.simple {advice : Attributes} (ha : Advice advice) {a : String × String} (h : a ∈ advice) : Simple a.1 := by
  have hplain : Simple "parent" ∧ Simple "document" := by decide
  rcases ha a h with he | he
  · exact he ▸ hplain.1
  · exact he ▸ hplain.2

theorem simple_attributes {advice : Attributes} (ha : Advice advice)
    (hsafe : ∀ e ∈ entries, XmlSafeField e.1.name) : ∀ a ∈ advice ++ entries.map attributeOf, Simple a.1 := by
  intro a h
  rcases List.mem_append.mp h with h | h
  · exact ha.simple h
  · obtain ⟨e, he, rfl⟩ := List.mem_map.mp h
    exact (hsafe e he).simple

theorem nodup_attributes {advice : Attributes} (ha : Advice advice) (hd : (advice.map (·.1)).Nodup)
    (hsafe : ∀ e ∈ entries, XmlSafeField e.1.name) (hnd : (entries.map (·.1.name)).Nodup) :
    ((advice ++ entries.map attributeOf).map (·.1)).Nodup := by
  have hnames : (entries.map attributeOf).map (·.1) = (entries.map (·.1.name)).map Name.escape := by
    rw [List.map_map, List.map_map]
    rfl
  rw [List.map_append, hnames]
  refine List.nodup_append.mpr ⟨hd, ?_, ?_⟩
  · refine List.Nodup.map_on (fun a hm b hm' he => ?_) hnd
    obtain ⟨x, hx, rfl⟩ := List.mem_map.mp hm
    obtain ⟨y, hy, rfl⟩ := List.mem_map.mp hm'
    exact Name.escape_inj (hsafe x hx).safe.markless (hsafe y hy).safe.markless he
  · intro a hm b hm' he
    obtain ⟨x, hx, rfl⟩ := List.mem_map.mp hm
    obtain ⟨_, hn, rfl⟩ := List.mem_map.mp hm'
    obtain ⟨y, hy, rfl⟩ := List.mem_map.mp hn
    have hne := (hsafe y hy).escape_ne
    exact (ha x hx).elim (fun h => hne.1 (he.symm.trans h)) (fun h => hne.2.1 (he.symm.trans h))

theorem escape_advice : Name.escape "parent" = "parent" ∧ Name.escape "document" = "document" := by decide

/-- Where the names of the attributes are distinct, no field has the name of an advice. -/
theorem ne_advice {advice : Attributes} (hnd : ((advice ++ entries.map attributeOf).map (·.1)).Nodup)
    {a : String × String} (ha : a ∈ advice) (hescape : Name.escape a.1 = a.1) {e : FieldDecl × Value} (he : e ∈ entries) :
    e.1.name ≠ a.1 := by
  intro hsame
  rw [List.map_append] at hnd
  have hfront : a.1 ∈ advice.map (·.1) := List.mem_map.mpr ⟨a, ha, rfl⟩
  have hback : a.1 ∈ (entries.map attributeOf).map (·.1) := by
    rw [List.map_map]
    refine List.mem_map.mpr ⟨e, he, ?_⟩
    rw [← hescape, ← hsame]
    rfl
  exact (List.nodup_append.mp hnd).2.2 _ hfront _ hback rfl

theorem ne_parent {path : String} (hnd : (([("parent", path)] ++ entries.map attributeOf).map (·.1)).Nodup) :
    ∀ e ∈ entries, e.1.name ≠ "parent" := by
  intro e he
  exact ne_advice hnd (a := ("parent", path)) List.mem_cons_self escape_advice.1 he

theorem ne_parent_document {path docPath : String}
    (hnd : (([("parent", path), ("document", docPath)] ++ entries.map attributeOf).map (·.1)).Nodup) :
    ∀ e ∈ entries, e.1.name ≠ "parent" ∧ e.1.name ≠ "document" := by
  intro e he
  exact ⟨ne_advice hnd (a := ("parent", path)) List.mem_cons_self escape_advice.1 he,
    ne_advice hnd (a := ("document", docPath)) (List.mem_cons_of_mem _ List.mem_cons_self) escape_advice.2 he⟩

/-! ## Names in a message -/

/-- The scope below a top element: the prefix of the message is bound, and there is no default namespace. -/
structure Bound (scope : Scope) (pre ns : String) : Prop where
  named : ElementText pre
  colonless : ':' ∉ pre.toList
  found : scope.lookup pre = some ns
  uri : ns ≠ ""
  bare : Markup.defaultNamespace scope = none

/-- The scope of an element that declares the prefixes of a message kind and of a message. -/
def messageScope (kind kindUri pre ns : String) : Scope := [(kind, kindUri), (pre, ns)].reverse ++ Markup.outermost

theorem elementText_ne_empty {p : String} (h : ElementText p) : p ≠ "" := by
  rintro rfl
  exact h.nonempty (by decide)

variable {kind kindUri pre ns : String}

theorem bound_declared (hk : ElementText kind) (hp : ElementText pre) (hc : ':' ∉ pre.toList) (hu : ns ≠ "") :
    Bound (messageScope kind kindUri pre ns) pre ns where
  named := hp
  colonless := hc
  found := List.lookup_cons_self
  uri := hu
  bare := by
    have h1 : ("" == pre) = false := beq_eq_false_iff_ne.mpr (elementText_ne_empty hp).symm
    have h2 : ("" == kind) = false := beq_eq_false_iff_ne.mpr (elementText_ne_empty hk).symm
    have h3 : (messageScope kind kindUri pre ns).lookup "" = none := by
      show List.lookup "" ((pre, ns) :: (kind, kindUri) :: Markup.outermost) = none
      rw [List.lookup_cons, h1, List.lookup_cons, h2]
      rfl
    rw [Markup.defaultNamespace, h3]

theorem bound_messageScope (hk : Declarable kind kindUri) (hp : Declarable pre ns) :
    Bound (messageScope kind kindUri pre ns) pre ns :=
  bound_declared hk.named hp.named hp.colonless hp.uriNonempty

theorem kind_found (hne : pre ≠ kind) : (messageScope kind kindUri pre ns).lookup kind = some kindUri := by
  have h1 : (kind == pre) = false := beq_eq_false_iff_ne.mpr hne.symm
  show List.lookup kind ((pre, ns) :: (kind, kindUri) :: Markup.outermost) = _
  rw [List.lookup_cons, h1]
  exact List.lookup_cons_self

variable {scope : Scope} {name : String} {attrs : Attributes} {children : List Written}

theorem elementIn_prefixed (h : Bound scope pre ns) :
    elementIn scope (.mk (pre ++ ":" ++ name) attrs children) =
      .mk ⟨some ns, name, [], readAs attrs⟩ (elementsIn scope children) := by
  rw [elementIn, Markup.nameIn_prefixed h.colonless h.found]

theorem elementIn_bare (h : Bound scope pre ns) (hc : ':' ∉ name.toList) :
    elementIn scope (.mk name attrs children) = .mk ⟨none, name, [], readAs attrs⟩ (elementsIn scope children) := by
  rw [elementIn, Markup.nameIn_simple hc h.bare]

theorem elementText_prefixed (hp : ElementText pre) (hn : Unbroken name) : ElementText (pre ++ ":" ++ name) := by
  have hcolon : ∀ c ∈ ":".toList, Bare c := Markup.all_chars (by decide)
  obtain ⟨hne, hbegins, hbare⟩ := hp
  have hhead : (pre ++ ":" ++ name).toList.head? = pre.toList.head? := by
    obtain ⟨c, rest, hpre⟩ := List.exists_cons_of_ne_nil hne
    rw [String.toList_append, String.toList_append, hpre]
    rfl
  refine ⟨by simp, hhead ▸ hbegins, fun c hc => ?_⟩
  rw [String.toList_append, String.toList_append] at hc
  rcases List.mem_append.mp hc with hc | hc
  · exact (List.mem_append.mp hc).elim (hbare c) (hcolon c)
  · exact hn c hc

theorem plain_prefixed (h : Bound scope pre ns) (hn : Unbroken name) (hs : ∀ a ∈ attrs, Simple a.1)
    (hnd : (attrs.map (·.1)).Nodup) (hall : AllPlain scope children) :
    Plain scope (.mk (pre ++ ":" ++ name) attrs children) := by
  exact ⟨elementText_prefixed h.named hn,
    Markup.resolveElement_prefixed h.colonless (elementText_ne_empty h.named) h.found h.uri name, hs, hnd, hall⟩

theorem plain_bare (hn : ElementText name) (hc : ':' ∉ name.toList) (hs : ∀ a ∈ attrs, Simple a.1)
    (hnd : (attrs.map (·.1)).Nodup) (hall : AllPlain scope children) : Plain scope (.mk name attrs children) :=
  ⟨hn, Markup.resolveElement_simple hc, hs, hnd, hall⟩

theorem allPlain_append {ws more : List Written} (h : AllPlain scope ws) (hmore : AllPlain scope more) :
    AllPlain scope (ws ++ more) := by
  induction ws with
  | nil => exact hmore
  | cons w rest ih => exact ⟨h.1, ih h.2⟩

theorem allPlain_of_append {ws more : List Written} (h : AllPlain scope (ws ++ more)) :
    AllPlain scope ws ∧ AllPlain scope more := by
  induction ws with
  | nil => exact ⟨trivial, h⟩
  | cons w rest ih =>
    obtain ⟨hrest, hmore⟩ := ih h.2
    exact ⟨⟨h.1, hrest⟩, hmore⟩

theorem elementsIn_append (ws more : List Written) :
    elementsIn scope (ws ++ more) = elementsIn scope ws ++ elementsIn scope more := by
  induction ws with
  | nil => rfl
  | cons w rest ih => rw [List.cons_append, elementsIn, elementsIn, ih, List.cons_append]

/-! ## The top element -/

/-- A top element in the namespace of the message kind is read back from its text. -/
theorem elementOfText_top (hk : Declarable kind kindUri) (hp : Declarable pre ns) (hne : pre ≠ kind)
    (hn : Unbroken name) (hs : ∀ a ∈ attrs, Simple a.1) (hnd : (attrs.map (·.1)).Nodup)
    (hall : AllPlain (messageScope kind kindUri pre ns) children) (indent : Nat) (declared : Bool) :
    elementOfText ((Written.mk (kind ++ ":" ++ name)
      ([("xmlns:" ++ kind, kindUri), ("xmlns:" ++ pre, ns)] ++ attrs) children).text indent declared) =
      .ok (.mk ⟨some kindUri, name, [(kind, kindUri), (pre, ns)], readAs attrs⟩
        (elementsIn (messageScope kind kindUri pre ns) children)) := by
  have hfound : (messageScope kind kindUri pre ns).lookup kind = some kindUri := kind_found hne
  have htop : Markup.Top (kind ++ ":" ++ name) [(kind, kindUri), (pre, ns)] attrs children := by
    refine ⟨elementText_prefixed hk.named hn, fun d hd => ?_, ?_, ?_, hs, hnd, hall⟩
    · rcases List.mem_cons.mp hd with rfl | hd
      · exact hk
      · rw [List.mem_singleton.mp hd]
        exact hp
    · simpa using hne.symm
    · exact Markup.resolveElement_prefixed hk.colonless (elementText_ne_empty hk.named) hfound hk.uriNonempty name
  have htext := Markup.ofText_top htop indent declared
  have hname := Markup.nameIn_prefixed hk.colonless hfound name
  rw [Markup.topElement] at htext
  rw [elementOfText]
  show (Element.ofText (Markup.dropMark ((Written.mk (kind ++ ":" ++ name)
    (Markup.declarationAttributes [(kind, kindUri), (pre, ns)] ++ attrs) children).text indent declared).toList)).mapError
      _ = _
  rw [htext]
  show Except.ok _ = _
  rw [show [(kind, kindUri), (pre, ns)].reverse ++ Markup.outermost = messageScope kind kindUri pre ns from rfl, hname]

end DocWire.Xml
