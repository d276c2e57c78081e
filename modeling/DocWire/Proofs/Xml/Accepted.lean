/-
  DocWire.Proofs.Xml.Accepted — what the reading of a text says of the names in it.

  No reader lets an attribute in a namespace pass (`readSegments_prefixless`, `readMembers_prefixless`). A written
  message whose names hold no end of a name or a tag and declare no prefix (`ElementName`, `AttributeName`) is spelled
  as the markup is to hold it (`encodeSegments_spelled`, `encodeSlots_spelled`). So what is read of it is the element that was
  written, and all its attributes are told apart (`elementOfText_accepted`).

  The URI of a message may be written by references, and prefixes are bound to it as it is written. Where an element
  with the prefix of the message is read, it is written as it is (`segments_bound`, `members_bound`).
-/

import DocWire.Proofs.Markup.Accepted
import DocWire.Proofs.Xml.Document
import DocWire.Proofs.Xml.Parameters
import DocWire.Proofs.Xml.Unmistaken

namespace DocWire

namespace Xml

open Markup (AllPlain AllPrefixless AllSpelled Declares Element ElementText Head OneUnnamed Plain Prefixless Scope Simple
  Spelled Unbroken Undeclaring Written elementIn elementsIn readAs)

/-! ## What readers let pass -/

theorem prefixless_of_applyAttributes {σ : Type} {set : σ → String → String → Except ModelError σ} {h : Head} {s s' : σ}
    (hok : applyAttributes set h s = .ok s') : ∀ a ∈ h.attributes, a.ns = none := by
  have hstep : ∀ s a s', applyAttribute set h s a = .ok s' → a.ns = none := by
    intro s a s' hs
    unfold applyAttribute at hs
    split at hs
    · cases hs
    · rename_i hns
      simpa using hns
  exact Outcome.foldlM_demands (I := fun _ => True) (fun s a s' _ h => ⟨trivial, hstep s a s' h⟩) trivial hok

theorem prefixless_of_checkAdvisory {h : Head} (hok : checkAdvisory h = .ok ()) : ∀ a ∈ h.attributes, a.ns = none := by
  unfold checkAdvisory at hok
  split at hok
  · cases hok
  rename_i hnone
  intro a ha
  have hpass := List.find?_eq_none.mp hnone a ha
  simp only [Bool.or_eq_true, not_or, Bool.not_eq_true, Option.isSome_eq_false_iff] at hpass
  exact Option.isNone_iff_eq_none.mp hpass.1

theorem prefixless_of_readHeader {h : Head} {d d' : Document} (hok : readHeader h d = .ok d') :
    ∀ a ∈ h.attributes, a.ns = none := by
  have hstep : ∀ d a d', applyHeader h d a = .ok d' → a.ns = none := by
    intro d a d' hd
    unfold applyHeader at hd
    split at hd
    · cases hd
    · rename_i hns
      simpa using hns
  exact Outcome.foldlM_demands (I := fun _ => True) (fun s a s' _ h => ⟨trivial, hstep s a s' h⟩) trivial hok

mutual

theorem readWrappers_prefixless {ns : String} : ∀ {es : List Element} {d d' : Document} {id : Nat},
    readWrappers ns d id es = .ok d' → AllPrefixless es
  | [], _, _, _, _ => trivial
  | .mk h children :: rest, d, d', id, hok => by
    unfold readWrappers at hok
    split at hok
    · cases hok
    split at hok
    · cases hok
    rename_i hcheck
    split at hok
    · cases hok
    rename_i hbelow
    exact ⟨⟨prefixless_of_checkAdvisory hcheck, readSegments_prefixless hbelow⟩, readWrappers_prefixless hok⟩

theorem readSegments_prefixless {ns : String} : ∀ {es : List Element} {d d' : Document} {id : Nat},
    readSegments ns d id es = .ok d' → AllPrefixless es
  | [], _, _, _, _ => trivial
  | .mk h children :: rest, d, d', id, hok => by
    obtain ⟨-, d₁, child, filled, d₂, -, happly, hbelow, hrest⟩ := readSegments_cons_iff.mp hok
    exact ⟨⟨prefixless_of_applyAttributes happly, readWrappers_prefixless hbelow⟩, readSegments_prefixless hrest⟩

end

theorem readDocument_ok {m : MessageType} {ns : String} {creation : Stamp} {e : Element} {d : Document}
    (hok : readDocument m ns creation e = .ok d) :
    ∃ started root filled, readHeader e.head (.new m creation) = .ok started ∧ e.children = [root] ∧
      applyAttributes (fun d name text => d.setWire Document.rootId name text) root.head started = .ok filled ∧
      readWrappers ns filled Document.rootId root.children = .ok d := by
  unfold readDocument at hok
  split at hok
  · cases hok
  rename_i started hstarted
  split at hok
  · cases hok
  rename_i root hroot
  split at hok
  · cases hok
  rename_i filled hfilled
  have hchildren : e.children = [root] := by
    unfold rootElement at hroot
    split at hroot
    · cases hroot
    · rename_i hone
      split at hroot
      · cases hroot
        exact hone
      · cases hroot
    · cases hroot
  exact ⟨started, root, filled, hstarted, hchildren, hfilled, hok⟩

theorem readDocument_prefixless {m : MessageType} {ns : String} {creation : Stamp} {e : Element} {d : Document}
    (hok : readDocument m ns creation e = .ok d) : Prefixless e := by
  obtain ⟨_, ⟨h, es⟩, _, hheader, hchildren, happly, hwrappers⟩ := readDocument_ok hok
  cases e with
  | mk head children =>
    obtain rfl : children = [.mk h es] := hchildren
    exact ⟨prefixless_of_readHeader hheader, ⟨prefixless_of_applyAttributes happly, readWrappers_prefixless hwrappers⟩,
      trivial⟩

mutual

theorem readRecord_prefixless {ns : String} : ∀ {e : Element} {r r' : Record}, readRecord ns r e = .ok r' → Prefixless e
  | .mk h children, r, r', hok => by
    obtain ⟨start, happly, hmembers⟩ := readRecord_ok hok
    exact ⟨prefixless_of_applyAttributes happly, readMembers_prefixless hmembers⟩

theorem readMembers_prefixless {ns : String} : ∀ {es : List Element} {r r' : Record}, readMembers ns r es = .ok r' →
    AllPrefixless es
  | [], _, _, _ => trivial
  | .mk h children :: rest, r, r', hok => by
    obtain ⟨-, ⟨_, _, _, _, _, _, -, -, hinner, hrest⟩ | ⟨_, _, _, _, _, _, _, -, hcheck, -, hrows, hrest⟩⟩ :=
      readMembers_cons_ok hok
    · exact ⟨readRecord_prefixless hinner, readMembers_prefixless hrest⟩
    · exact ⟨⟨prefixless_of_checkAdvisory hcheck, readRows_prefixless hrows⟩, readMembers_prefixless hrest⟩

theorem readRows_prefixless {ns : String} {blank : Record} : ∀ {es : List Element} {rows : List Record},
    readRows ns blank es = .ok rows → AllPrefixless es
  | [], _, _ => trivial
  | .mk h children :: rest, rows, hok => by
    obtain ⟨-, x, more, hx, hmore, -⟩ := readRows_cons_ok hok
    exact ⟨readRecord_prefixless hx, readRows_prefixless hmore⟩

end

/-! ## What is written -/

variable {scope : Scope} {pre ns docPath : String} {entries : List (FieldDecl × Value)}

theorem undeclaring_of_simple {name : String} (h : Simple name) : Undeclaring name :=
  ⟨h.1.unbroken, Markup.declaredPrefix?_simple h⟩

theorem undeclaring_attributes {advice : Attributes} (ha : Advice advice) {own : Option String} {declared : List String}
    (hnames : ∀ e ∈ entries, AttributeName own declared e.1.name) :
    ∀ a ∈ advice ++ entries.map attributeOf, Undeclaring a.1 := by
  intro a h
  rcases List.mem_append.mp h with h | h
  · exact undeclaring_of_simple (ha.simple h)
  · obtain ⟨e, he, rfl⟩ := List.mem_map.mp h
    exact ⟨(hnames e he).unbroken, (hnames e he).undeclaring⟩

theorem Advice.named {advice : Attributes} (ha : Advice advice) : ∀ a ∈ advice, a.1 ≠ "" := by
  intro a h he
  exact (ha.simple h).1.nonempty (String.toList_eq_nil_iff.mpr he)

/-- The names of fields are distinct, so at most one is empty. -/
theorem oneUnnamed_attributes {advice : Attributes} (ha : Advice advice) (hnd : (entries.map (·.1.name)).Nodup) :
    OneUnnamed (advice ++ entries.map attributeOf) := by
  have hfields : OneUnnamed (entries.map attributeOf) := by
    refine List.pairwise_map.mpr ((List.pairwise_map.mp hnd).imp ?_)
    intro e e' hne
    by_contra hboth
    simp only [attributeOf, not_or, ne_eq, not_not] at hboth
    exact hne ((Name.eq_of_escape (by decide) hboth.1).trans (Name.eq_of_escape (by decide) hboth.2).symm)
  exact hfields.behind ha.named

theorem wrapped_spelled {path : String} {below : List Written} (h : AllSpelled below) :
    AllSpelled (wrapped path below) := by
  cases below with
  | nil => trivial
  | cons w rest =>
    refine ⟨⟨bare_names.1.1, ?_, List.pairwise_singleton _ _, h⟩, trivial⟩
    intro a ha
    exact undeclaring_of_simple ((advice_parent path).simple ha)

open Record (RowsSound SlotSound SlotsSound)

variable {scope : Scope} {pre ns docPath : String}

theorem encodeSegments_spelled (hpre : ElementText pre) {m : MessageType} (hm : m.Resolved) {own : Option String} :
    ∀ (ts : List (Tree Segment)) {type : SegmentType} {level : Nat} {path : String} {before : List String}
      {ws : List Written}, Tree.AllFit m type level ts → Tree.AllUnmistaken own type ts →
      encodeSegments pre docPath path before ts = .ok ws → AllSpelled ws
  | [], _, _, _, _, ws, _, _, h => by
    simp only [encodeSegments, Except.ok.injEq] at h
    subst h
    trivial
  | .node s children :: rest, type, level, path, before, ws, hfits, hnames, h => by
    obtain ⟨-, ⟨htype, -, -, hall⟩, hfitsRest⟩ := hfits
    obtain ⟨⟨hname, hfields, hbelow⟩, hrest⟩ := hnames
    obtain ⟨e, es, he, hes, rfl⟩ := encodeSegments_cons h
    obtain ⟨below, hchildren, -, rfl⟩ := encodeSegment_ok he
    have hadvice := advice_both path docPath
    have hnd : (s.entries.map (·.1.name)).Nodup := Segment.entries_nodup (hm.fields s.type htype)
    refine ⟨⟨elementText_prefixed hpre hname.unbroken, undeclaring_attributes hadvice hfields,
      oneUnnamed_attributes hadvice hnd, wrapped_spelled ?_⟩, ?_⟩
    · exact encodeSegments_spelled hpre hm children hall hbelow hchildren
    · exact encodeSegments_spelled hpre hm rest hfitsRest hrest hes

mutual

theorem encodeRecordAs_spelled (hpre : ElementText pre) : ∀ (r : Record) {name path parent : String} {w : Written},
    r.Sound → r.shape.Distinct → ElementText name → (∀ x ∈ r.preorder, x.Unmistaken) →
    encodeRecordAs pre name [("parent", parent)] path r = .ok w → Spelled w
  | .mk f shape slots, name, path, parent, w, hsound, hdistinct, hname, hbelow, h => by
    obtain ⟨ws, hws, -, rfl⟩ := encodeRecordAs_ok h
    have hown : (Record.mk f shape slots).Unmistaken := hbelow _ List.mem_cons_self
    have hnd := (Record.entries_sublist (.mk f shape slots)).nodup hdistinct.members
    have hmembers := encodeSlots_spelled hpre slots hsound (fun m hm t ht => hdistinct.below hm ht)
      (fun m hm => (hown.members m hm).unbroken) (fun x hx => hbelow x (List.mem_cons_of_mem _ hx)) hws
    exact ⟨hname, undeclaring_attributes (advice_parent parent) (fun e he => (hown.fields e he).1),
      oneUnnamed_attributes (advice_parent parent) hnd, hmembers⟩

theorem encodeSlots_spelled (hpre : ElementText pre) : ∀ (slots : List (Slot Record)) {f : Function}
    {ms : List (Member Shape)} {path : String} {ws : List Written}, SlotsSound f ms slots →
    (∀ m ∈ ms, ∀ t, m.reference? = some t → t.Distinct) →
    (∀ m ∈ Record.presentAmong ms slots, Unbroken (Name.escape m.name)) →
    (∀ x ∈ Record.preorderSlots slots, x.Unmistaken) →
    encodeSlots pre path (ms.map Member.name) slots = .ok ws → AllSpelled ws
  | [], _, _, _, ws, _, _, _, _, h => by
    simp only [encodeSlots, Except.ok.injEq] at h
    subst h
    trivial
  | slot :: rest, _, [], _, _, hs, _, _, _, _ => by cases hs
  | slot :: rest, f, m :: ms, path, ws, hs, hdistinct, hnames, hbelow, h => by
    obtain ⟨es, more, hes, hmore, rfl⟩ := encodeSlots_cons h
    have hname : slot ≠ .absent → Unbroken (Name.escape m.name) := fun hslot =>
      hnames m (Record.presentAmong_own hslot)
    have hown := encodeSlot_spelled hpre slot hs.1 (hdistinct m List.mem_cons_self) hname
      (fun x hx => hbelow x (List.mem_append_left _ hx)) hes
    exact hown.append (encodeSlots_spelled hpre rest hs.2 (fun m hm => hdistinct m (List.mem_cons_of_mem _ hm))
      (fun m hm => hnames m (Record.presentAmong_rest hm)) (fun x hx => hbelow x (List.mem_append_right _ hx)) hmore)

theorem encodeSlot_spelled (hpre : ElementText pre) : ∀ (slot : Slot Record) {f : Function} {m : Member Shape}
    {path : String} {ws : List Written}, SlotSound f m slot → (∀ t, m.reference? = some t → t.Distinct) →
    (slot ≠ .absent → Unbroken (Name.escape m.name)) →
    (∀ x ∈ Record.preorderSlot slot, x.Unmistaken) → encodeSlot pre path (Name.escape m.name) slot = .ok ws →
    AllSpelled ws
  | .absent, _, _, _, ws, _, _, _, _, h => by
    simp only [encodeSlot, Except.ok.injEq] at h
    subst h
    trivial
  | .value v, _, _, _, ws, _, _, _, _, h => by
    simp only [encodeSlot, Except.ok.injEq] at h
    subst h
    trivial
  | .nested r, f, m, path, ws, hs, hdistinct, hname, hbelow, h => by
    simp only [encodeSlot] at h
    obtain ⟨w, hw, rfl⟩ := Outcome.map_eq_ok.mp h
    have hspelled := elementText_prefixed hpre (hname fun he => by cases he)
    cases m with
    | field decl => cases hs
    | table name description row => cases hs
    | nested name description shape =>
      obtain ⟨-, hshape, hsound⟩ := hs
      have hinner : r.shape.Distinct := hshape ▸ hdistinct shape rfl
      exact ⟨encodeRecordAs_spelled hpre r hsound hinner hspelled hbelow hw, trivial⟩
  | .table rows, f, m, path, ws, hs, hdistinct, hname, hbelow, h => by
    simp only [encodeSlot] at h
    obtain ⟨ws, hws, rfl⟩ := Outcome.map_eq_ok.mp h
    have hspelled := elementText_prefixed hpre (hname fun he => by cases he)
    cases m with
    | field decl => cases hs
    | nested name description shape => cases hs
    | table name description row =>
      refine ⟨⟨hspelled, ?_, List.pairwise_singleton _ _,
        encodeRows_spelled hpre rows (hdistinct row rfl) hs hbelow hws⟩, trivial⟩
      intro a ha
      exact undeclaring_of_simple ((advice_parent path).simple ha)

theorem encodeRows_spelled (hpre : ElementText pre) : ∀ (rows : List Record) {f : Function} {row : Shape} {path : String}
    {i : Nat} {ws : List Written}, row.Distinct → RowsSound f row rows →
    (∀ x ∈ Record.preorderRows rows, x.Unmistaken) → encodeRows pre path i rows = .ok ws → AllSpelled ws
  | [], _, _, _, _, ws, _, _, _, h => by
    simp only [encodeRows, Except.ok.injEq] at h
    subst h
    trivial
  | r :: rest, f, row, path, i, ws, hdistinct, hs, hbelow, h => by
    obtain ⟨own, w, more, hw, hmore, rfl⟩ := encodeRows_cons h
    obtain ⟨⟨-, hshape, hsound⟩, hrest⟩ := hs
    refine ⟨?_, encodeRows_spelled hpre rest hdistinct hrest (fun x hx => hbelow x (List.mem_append_right _ hx)) hmore⟩
    exact encodeRecordAs_spelled hpre r hsound (hshape ▸ hdistinct) row_name.1
      (fun x hx => hbelow x (List.mem_append_left _ hx)) hw

end

/-! ## The prefix of the message -/

variable {raw : String}

theorem inNamespace_raw {h : Head} (hns : h.ns = some raw) (hin : inNamespace ns h = true) : raw = ns := by
  unfold inNamespace at hin
  rw [hns] at hin
  simpa using hin

/-- Where segments are read, the prefix of the message is bound to its namespace. -/
theorem segments_bound (hb : Bound scope pre raw) {ts : List (Tree Segment)} {path : String} {before : List String}
    {ws : List Written} (h : encodeSegments pre docPath path before ts = .ok ws) {d d' : Document} {id : Nat}
    (hread : readSegments ns d id (elementsIn scope ws) = .ok d') : ws = [] ∨ raw = ns := by
  cases ts with
  | nil =>
    simp only [encodeSegments, Except.ok.injEq] at h
    exact .inl h.symm
  | cons t rest =>
    obtain ⟨e, es, he, -, rfl⟩ := encodeSegments_cons h
    cases t with
    | node s children =>
      obtain ⟨below, -, -, rfl⟩ := encodeSegment_ok he
      rw [elementsIn, elementIn_prefixed hb] at hread
      exact .inr (inNamespace_raw rfl (readSegments_cons_iff.mp hread).1)

/-- An element with the prefix of the message. -/
def Prefixed (pre : String) (w : Written) : Prop := ∃ name attrs children, w = .mk (pre ++ ":" ++ name) attrs children

theorem encodeSlots_prefixed : ∀ {slots : List (Slot Record)} {names : List String} {path : String} {ws : List Written},
    encodeSlots pre path names slots = .ok ws → ∀ w ∈ ws, Prefixed pre w
  | [], names, path, ws, h => by
    simp only [encodeSlots, Except.ok.injEq] at h
    subst h
    intro w hw
    cases hw
  | slot :: rest, names, path, ws, h => by
    obtain ⟨es, more, hes, hmore, rfl⟩ := encodeSlots_cons h
    have hown : ∀ w ∈ es, Prefixed pre w := by
      intro w hw
      cases slot with
      | absent =>
        simp only [encodeSlot, Except.ok.injEq] at hes
        subst hes
        cases hw
      | value v =>
        simp only [encodeSlot, Except.ok.injEq] at hes
        subst hes
        cases hw
      | nested r =>
        cases r with
        | mk f shape slots =>
          simp only [encodeSlot] at hes
          obtain ⟨e, he, rfl⟩ := Outcome.map_eq_ok.mp hes
          obtain ⟨below, -, -, rfl⟩ := encodeRecordAs_ok he
          rw [List.mem_singleton.mp hw]
          exact ⟨_, _, _, rfl⟩
      | table rows =>
        simp only [encodeSlot] at hes
        obtain ⟨below, -, rfl⟩ := Outcome.map_eq_ok.mp hes
        rw [List.mem_singleton.mp hw]
        exact ⟨_, _, _, rfl⟩
    intro w hw
    rcases List.mem_append.mp hw with hw | hw
    · exact hown w hw
    · exact encodeSlots_prefixed hmore w hw

/-- Where members are read, the prefix of the message is bound to its namespace. -/
theorem members_bound (hb : Bound scope pre raw) {slots : List (Slot Record)} {names : List String} {path : String}
    {ws : List Written} (h : encodeSlots pre path names slots = .ok ws) {r r' : Record}
    (hread : readMembers ns r (elementsIn scope ws) = .ok r') : ws = [] ∨ raw = ns := by
  cases ws with
  | nil => exact .inl rfl
  | cons w rest =>
    obtain ⟨name, attrs, children, rfl⟩ := encodeSlots_prefixed h w List.mem_cons_self
    rw [elementsIn, elementIn_prefixed hb] at hread
    exact .inr (inNamespace_raw rfl (readMembers_cons_ok hread).1)

/-! ## The top element -/

theorem mem_escape_uri {uri : String} (h : 'd' ∈ uri.toList ∨ 'f' ∈ uri.toList) :
    'd' ∈ (Markup.escape uri).toList ∨ 'f' ∈ (Markup.escape uri).toList := by
  rcases h with h | h
  · exact .inl (Markup.mem_escape_of_mem h (by decide))
  · exact .inr (Markup.mem_escape_of_mem h (by decide))

/-- A prefix that is declared for a namespace below a base. -/
theorem declares_of_mem {p uri : String} (hp : ElementText p) (hu : p ≠ "xml" ∧ p ≠ "xmlns")
    (hmem : 'd' ∈ uri.toList ∨ 'f' ∈ uri.toList) : Declares p uri :=
  ⟨hp, hu, ne_reserved (mem_escape_uri hmem)⟩

theorem checkTop_ok {h : Head} {names : List String} (hok : checkTop h ns names = .ok ()) : h.ns = some ns := by
  unfold checkTop at hok
  split at hok
  · rename_i hpass
    simp only [Bool.and_eq_true, beq_iff_eq] at hpass
    exact hpass.1
  · cases hok

/-- A message that is accepted holds what was written: a top element in the namespace of the message kind, with its
attributes, and what was written below it, where the prefix of the message is bound to some URI. -/
theorem elementOfText_accepted {kind kindUri name message : String} {attrs : Attributes} {children : List Written}
    (hkind : ElementText kind) (hcolon : ':' ∉ kind.toList) (hreserved : kind ≠ "xml" ∧ kind ≠ "xmlns")
    (hkindUri : 'd' ∈ kindUri.toList ∨ 'f' ∈ kindUri.toList) (hns : 'd' ∈ ns.toList ∨ 'f' ∈ ns.toList)
    (hne : messagePrefix message ≠ kind) (hn : Unbroken name) (ha : ∀ a ∈ attrs, Undeclaring a.1)
    (hone : OneUnnamed attrs) (hchildren : AllSpelled children) {indent : Nat} {declared : Bool} {e : Element}
    {names : List String}
    (h : elementOfText ((Written.mk (kind ++ ":" ++ name)
      ([("xmlns:" ++ kind, kindUri), ("xmlns:" ++ messagePrefix message, ns)] ++ attrs) children).text indent declared) =
        .ok e)
    (hless : Prefixless e) (hcheck : checkTop e.head kindUri names = .ok ()) :
    ∃ raw, Bound (messageScope kind kindUri (messagePrefix message) raw) (messagePrefix message) raw ∧
      e = .mk ⟨some kindUri, name, [(kind, kindUri), (messagePrefix message, ns)], readAs attrs⟩
        (elementsIn (messageScope kind kindUri (messagePrefix message) raw) children) ∧
      AllPlain (messageScope kind kindUri (messagePrefix message) raw) children := by
  have hpre := messagePrefix_named message
  have hdecls : ∀ d ∈ [(kind, kindUri), (messagePrefix message, ns)], Declares d.1 d.2 := by
    intro d hd
    rcases List.mem_cons.mp hd with rfl | hd
    · exact declares_of_mem hkind hreserved hkindUri
    · rw [List.mem_singleton.mp hd]
      exact declares_of_mem hpre.1 (messagePrefix_unreserved _) hns
  have hdistinct : ([(kind, kindUri), (messagePrefix message, ns)].map (·.1)).Nodup := by simpa using hne.symm
  have hparsed : Element.ofText (Markup.dropMark ((Written.mk (kind ++ ":" ++ name) (Markup.declarationAttributes
      [(kind, kindUri), (messagePrefix message, ns)] ++ attrs) children).text indent declared).toList) = .ok e :=
    Outcome.mapError_eq_ok.mp h
  obtain ⟨rfl, -, -, hplain⟩ := Markup.ofText_declaring (elementText_prefixed hkind hn) hdecls hdistinct ha hone hchildren
    hparsed hless
  have hscope : Markup.bindings [(kind, kindUri), (messagePrefix message, ns)] ++ Markup.outermost =
      messageScope kind (Markup.escape kindUri) (messagePrefix message) (Markup.escape ns) := rfl
  have hfound : (messageScope kind (Markup.escape kindUri) (messagePrefix message) (Markup.escape ns)).lookup kind =
      some (Markup.escape kindUri) := kind_found hne
  have hname := Markup.nameIn_prefixed hcolon hfound name
  rw [hscope] at hcheck hplain ⊢
  rw [hname] at hcheck ⊢
  -- the namespace of the message kind is asked for as it is, so it is written as it is
  have hplainUri : Markup.escape kindUri = kindUri := Option.some_inj.mp (checkTop_ok hcheck)
  rw [hplainUri] at hplain ⊢
  exact ⟨Markup.escape ns, bound_declared hkind hpre.1 hpre.2.1 (ne_empty_of_mem (mem_escape_uri hns)), rfl, hplain⟩

end Xml

end DocWire
