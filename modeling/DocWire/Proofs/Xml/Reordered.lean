/-
  DocWire.Proofs.Xml.Reordered — what is read does not depend on the order of attributes, except where a field is given
  twice.

  Two elements that differ in the order of their attributes are read side by side, from states that look the same through
  a view. What decides how the reader goes on — names, namespaces, declarations, the room for a segment, the kind of a
  member — is in both, so both fail, or the states look the same again behind it (`readSegments_alike`,
  `readMembers_alike`). For this no tag may give one declared field two values that look different: the element must be
  settled for the message type or the shape that it is read by.

  Through the view of nothing every element is settled. So an order of attributes never decides whether a text is
  read, nor which header, segments, nested records and rows come of it. Through the view of one declared field an element
  is settled unless one of its tags gives just that field twice, so no other field depends on the order
  (`attributes_reordered`).
-/

import DocWire.Proofs.Document.Locality
import DocWire.Proofs.Parameters.Arise
import DocWire.Proofs.Xml.Elements
import DocWire.Proofs.Xml.Settled

namespace DocWire.Xml

open Markup (Attribute Declarable Element Head Plain Simple Written elementsIn readAs)
open Markup.Element (AllReordered)
open Outcome (Alike alike_ok alike_error)
open Record (IsOf)

variable {ns : String} {head head' : Head} {e e' : Element}

/-! ## Segments -/

section

variable {view : View SegmentType} {m : MessageType} {type : SegmentType} {id : Nat} {d d' : Document}

theorem HasType.continues (h : HasType m id type d) (hc : d.Continues d') : HasType m id type d' := by
  obtain ⟨rfl, s, hs, rfl⟩ := h
  obtain ⟨s', hs', htype, -⟩ := hc.2 id s hs
  exact ⟨hc.1, s', hs', htype⟩

theorem HasType.setWire (h : HasType m id type d) {i : Nat} {name text : String} (hok : d.setWire i name text = .ok d') :
    HasType m id type d' := by
  obtain ⟨s, j, decl, value?, -, -, -, rfl⟩ := Document.changeField_resolved hok
  exact h.continues (Document.continues_putFields i _)

theorem HasType.addChild (h : HasType m id type d) {i c : Nat} {name : String} (hok : d.addChild i name = .ok (d', c)) :
    HasType m id type d' := by
  obtain ⟨s, slot, child, -, -, -, rfl, rfl⟩ := Document.addChild_eq_ok hok
  exact h.continues (Document.continues_append i s child)

theorem HasType.applyAttributes (h : HasType m id type d) {i : Nat}
    (hok : applyAttributes (fun d name text => d.setWire i name text) head d = .ok d') : HasType m id type d' :=
  applyAttributes_keeps (fun _ _ _ _ h hset => h.setWire hset) h hok

theorem HasType.readSegments (h : HasType m id type d) {i : Nat} {es : List Element}
    (hok : readSegments ns d i es = .ok d') : HasType m id type d' :=
  readSegments_keeps (fun _ _ _ _ _ h => h.setWire) (fun _ _ _ _ _ h => h.addChild) h hok

theorem HasType.readWrappers (h : HasType m id type d) {i : Nat} {es : List Element}
    (hok : readWrappers ns d i es = .ok d') : HasType m id type d' :=
  readWrappers_keeps (fun _ _ _ _ _ h => h.setWire) (fun _ _ _ _ _ h => h.addChild) h hok

/-- The child that is added is of the type that the name means. -/
theorem HasType.added (h : HasType m id type d) {c : Nat} {name : String} (hok : d.addChild id name = .ok (d', c)) :
    ∃ slot child, m.childOf? type name = some (slot, child) ∧ HasType m c child d' := by
  obtain ⟨rfl, s, hs, rfl⟩ := h
  obtain ⟨s', slot, child, hs', hchild, -, rfl, rfl⟩ := Document.addChild_eq_ok hok
  rw [hs, Option.some_inj] at hs'
  subst hs'
  exact ⟨slot, child, hchild, rfl, _, Document.segment?_append_new (Document.segment?_lt hs), rfl⟩

theorem addChild_alike (hs : d.seen view = d'.seen view) (name : String) :
    Alike (fun p : Document × Nat => (p.1.seen view, p.2)) (d.addChild id name) (d'.addChild id name) :=
  Outcome.alike_of_map (by rw [Document.seen_addChild, Document.seen_addChild, hs])

theorem readWrappers_cons (ns : String) (d : Document) (id : Nat) (h : Head) (children rest : List Element) :
    readWrappers ns d id (.mk h children :: rest) =
      if !h.isNamed none "segmentChildren" then .error (unexpected "segmentChildren" h)
      else (checkAdvisory h).bind fun _ => (readSegments ns d id children).bind fun d => readWrappers ns d id rest := by
  rw [readWrappers]
  split
  · rfl
  rcases checkAdvisory h with e | ⟨⟩
  · rfl
  · cases readSegments ns d id children <;> rfl

theorem readSegments_cons (ns : String) (d : Document) (id : Nat) (h : Head) (children rest : List Element) :
    readSegments ns d id (.mk h children :: rest) =
      if !inNamespace ns h then .error (unexpected ("segment in " ++ ns) h)
      else ((d.addChild id (Name.unescape h.name)).mapError .model).bind fun p =>
        (applyAttributes (fun d name text => d.setWire p.2 name text) h p.1).bind fun d =>
          (readWrappers ns d p.2 children).bind fun d => readSegments ns d id rest := by
  rw [readSegments]
  split
  · rfl
  rcases d.addChild id (Name.unescape h.name) with e | ⟨d₁, c⟩
  · rfl
  simp only [Except.mapError, Except.bind]
  cases applyAttributes (fun d name text => d.setWire c name text) h d₁ with
  | error e => rfl
  | ok d₂ =>
    dsimp only
    cases readWrappers ns d₂ c children <;> rfl

theorem unexpected_eq (hr : head.Reordered head') (expected : String) :
    unexpected expected head' = unexpected expected head := by
  rw [unexpected, unexpected, hr.display_eq]

theorem inNamespace_eq (hr : head.Reordered head') (ns : String) : inNamespace ns head' = inNamespace ns head := by
  rw [inNamespace, inNamespace, hr.ns]

mutual

theorem readWrappers_alike {type : SegmentType} {id : Nat} : ∀ {es es' : List Element} {d d' : Document},
    HasType m id type d → HasType m id type d' → d.seen view = d'.seen view → AllReordered es es' →
      SettledWrappers view m type es → Alike (Document.seen view) (readWrappers ns d id es) (readWrappers ns d' id es')
  | [], [], d, d', _, _, hs, _, _ => by
    rw [readWrappers, readWrappers]
    exact alike_ok.mpr hs
  | [], _ :: _, _, _, _, _, _, hreordered, _ => hreordered.elim
  | _ :: _, [], _, _, _, _, _, hreordered, _ => hreordered.elim
  | .mk h children :: rest, .mk h' children' :: rest', d, d', hd, hd', hs, hreordered, hsettled => by
    obtain ⟨⟨hr, hchildren⟩, hrest⟩ := hreordered
    obtain ⟨hbelow, hbeside⟩ := hsettled
    rw [readWrappers_cons, readWrappers_cons, hr.isNamed_eq]
    split
    · exact alike_error _ _
    refine (checkAdvisory_alike hr).bind fun _ _ _ _ _ => ?_
    refine (readSegments_alike hd hd' hs hchildren hbelow).bind fun d₁ d₁' hok hok' hs₁ => ?_
    exact readWrappers_alike (hd.readSegments hok) (hd'.readSegments hok') hs₁ hrest hbeside

theorem readSegments_alike {type : SegmentType} {id : Nat} : ∀ {es es' : List Element} {d d' : Document},
    HasType m id type d → HasType m id type d' → d.seen view = d'.seen view → AllReordered es es' →
      SettledSegments view m type es → Alike (Document.seen view) (readSegments ns d id es) (readSegments ns d' id es')
  | [], [], d, d', _, _, hs, _, _ => by
    rw [readSegments, readSegments]
    exact alike_ok.mpr hs
  | [], _ :: _, _, _, _, _, _, hreordered, _ => hreordered.elim
  | _ :: _, [], _, _, _, _, _, hreordered, _ => hreordered.elim
  | .mk h children :: rest, .mk h' children' :: rest', d, d', hd, hd', hs, hreordered, hsettled => by
    obtain ⟨⟨hr, hchildren⟩, hrest⟩ := hreordered
    obtain ⟨hbelow, hbeside⟩ := hsettled
    rw [readSegments_cons, readSegments_cons, inNamespace_eq hr, hr.name]
    split
    · exact alike_error _ _
    refine (addChild_alike hs _).mapError.bind ?_
    rintro ⟨d₁, c⟩ ⟨d₁', c'⟩ hadd hadd' hsame
    obtain ⟨hs₁, rfl⟩ := Prod.mk.inj hsame
    have hadded := Outcome.mapError_eq_ok.mp hadd
    have hadded' := Outcome.mapError_eq_ok.mp hadd'
    -- both have one child more, of the type that the name means
    obtain ⟨slot, child, hchild, hnew⟩ := hd.added hadded
    obtain ⟨slot', child', hchild', hnew'⟩ := hd'.added hadded'
    rw [hchild] at hchild'
    cases hchild'
    obtain ⟨hhead, hunder⟩ := hbelow slot child hchild
    have hfills := segment_fills m c child view
    refine (applyAttributes_alike hfills hr hhead hnew hnew' hs₁).bind fun d₂ d₂' hset hset' hs₂ => ?_
    refine (readWrappers_alike (hnew.applyAttributes hset) (hnew'.applyAttributes hset') hs₂ hchildren hunder).bind
      fun d₃ d₃' hok hok' hs₃ => ?_
    have hparent := ((hd.addChild hadded).applyAttributes hset).readWrappers hok
    have hparent' := ((hd'.addChild hadded').applyAttributes hset').readWrappers hok'
    exact readSegments_alike hparent hparent' hs₃ hrest hbeside

end

/-! ## Documents -/

/-- The element that a document holds is reordered with it. -/
theorem rootElement_cases (hr : e.Reordered e') :
    (∃ root root', rootElement e = .ok root ∧ rootElement e' = .ok root' ∧ root.Reordered root') ∨
    ((∃ cause, rootElement e = .error cause) ∧ ∃ cause, rootElement e' = .error cause) := by
  have hchildren := hr.children
  unfold rootElement
  generalize e.children = es at hchildren
  generalize e'.children = es' at hchildren
  match es, es', hchildren with
  | [], [], _ => exact .inr ⟨⟨_, rfl⟩, _, rfl⟩
  | [root], [root'], hchildren =>
    have hroot : root.Reordered root' := hchildren.1
    simp only [hroot.head.isNamed_eq]
    split
    · exact .inl ⟨root, root', rfl, rfl, hroot⟩
    · exact .inr ⟨⟨_, rfl⟩, _, rfl⟩
  | _ :: _ :: _, _ :: _ :: _, _ => exact .inr ⟨⟨_, rfl⟩, _, rfl⟩
  | [], _ :: _, hchildren => exact hchildren.elim
  | _ :: _, [], hchildren => exact hchildren.elim
  | [_], _ :: _ :: _, hchildren => exact hchildren.2.elim
  | _ :: _ :: _, [_], hchildren => exact hchildren.2.elim

theorem readDocument_eq (schema : MessageType) (ns : String) (creation : Stamp) (e : Element) :
    readDocument schema ns creation e =
      (readHeader e.head (.new schema creation)).bind fun d => (rootElement e).bind fun root =>
        (applyAttributes (fun d name text => d.setWire Document.rootId name text) root.head d).bind fun d =>
          readWrappers ns d Document.rootId root.children := by
  rw [readDocument]
  cases readHeader e.head (.new schema creation) with
  | error cause => rfl
  | ok d =>
    dsimp only [Except.bind]
    cases rootElement e with
    | error cause => rfl
    | ok root =>
      dsimp only
      cases applyAttributes (fun d name text => d.setWire Document.rootId name text) root.head d <;> rfl

theorem readDocument_alike (hr : e.Reordered e') (honce : e.head.NamedOnce) (hsettled : SettledDocument view m e)
    (creation : Stamp) :
    Alike (Document.seen view) (readDocument m ns creation e) (readDocument m ns creation e') := by
  rw [readDocument_eq, readDocument_eq]
  have hnew : HasType m Document.rootId m.root (.new m creation) := ⟨rfl, _, rfl, rfl⟩
  have hheader : ∀ {h : Head} {d : Document}, readHeader h (.new m creation) = .ok d → HasType m Document.rootId m.root d :=
    fun hok => readHeader_keeps (fun _ _ h => h) hnew hok
  have hstart : Alike (Document.seen view) (readHeader e.head (.new m creation)) (readHeader e'.head (.new m creation)) :=
    readHeader_alike hr.head honce _
  refine hstart.bind fun d₁ d₁' hok hok' hs₁ => ?_
  rcases rootElement_cases hr with ⟨root, root', hroot, hroot', hreordered⟩ | ⟨⟨cause, hroot⟩, cause', hroot'⟩
  · rw [hroot, hroot']
    obtain ⟨hhead, hbelow⟩ := hsettled root hroot
    have hfills := segment_fills m Document.rootId m.root view
    refine (applyAttributes_alike hfills hreordered.head hhead (hheader hok) (hheader hok') hs₁).bind
      fun d₂ d₂' hset hset' hs₂ => ?_
    have hroot₂ := (hheader hok).applyAttributes hset
    have hroot₂' := (hheader hok').applyAttributes hset'
    exact readWrappers_alike hroot₂ hroot₂' hs₂ hreordered.children hbelow
  · rw [hroot, hroot']
    exact alike_error _ _

theorem readListed_cons (ns : String) (creation : Stamp) (b : Batch) (e : Element) (rest : List Element) :
    readListed ns creation b (e :: rest) =
      if !e.head.isNamed none "document" then .error (unexpected "document" e.head)
      else (readDocument b.schema ns creation e).bind fun d =>
        ((b.push d).mapError .model).bind fun b => readListed ns creation b rest := by
  rw [readListed]
  split
  · rfl
  cases readDocument b.schema ns creation e with
  | error cause => rfl
  | ok d =>
    dsimp only [Except.bind]
    cases b.push d <;> rfl

theorem schema_push {b b' : Batch} (h : b.push d = .ok b') : b'.schema = b.schema := by
  unfold Batch.push at h
  split at h
  · cases h
    rfl
  · cases h

theorem readListed_alike (creation : Stamp) : ∀ {es es' : List Element} {b b' : Batch}, b.schema = m → b'.schema = m →
    b.seen view = b'.seen view → AllReordered es es' → (∀ e ∈ es, e.head.NamedOnce) →
      (∀ e ∈ es, SettledDocument view m e) →
      Alike (Batch.seen view) (readListed ns creation b es) (readListed ns creation b' es')
  | [], [], _, _, _, _, hs, _, _, _ => alike_ok.mpr hs
  | [], _ :: _, _, _, _, _, _, hreordered, _, _ => hreordered.elim
  | _ :: _, [], _, _, _, _, _, hreordered, _, _ => hreordered.elim
  | e :: rest, e' :: rest', b, b', hb, hb', hs, hreordered, honce, hsettled => by
    obtain ⟨hr, hrest⟩ := hreordered
    rw [readListed_cons, readListed_cons, hr.head.isNamed_eq, hb, hb']
    split
    · exact alike_error _ _
    refine (readDocument_alike hr (honce e List.mem_cons_self) (hsettled e List.mem_cons_self) creation).bind
      fun d d' _ _ hd => ?_
    have hpush : Alike (Batch.seen view) (b.push d) (b'.push d') :=
      Outcome.alike_of_map (by rw [Batch.seen_push, Batch.seen_push, hs, hd])
    refine hpush.mapError.bind fun b₁ b₁' hok hok' hs₁ => ?_
    have hschema := (schema_push (Outcome.mapError_eq_ok.mp hok)).trans hb
    have hschema' := (schema_push (Outcome.mapError_eq_ok.mp hok')).trans hb'
    exact readListed_alike creation hschema hschema' hs₁ hrest (fun x hx => honce x (List.mem_cons_of_mem _ hx))
      fun x hx => hsettled x (List.mem_cons_of_mem _ hx)

end

/-! ## Parameter sets -/

section

variable {view : View Shape} {f : Function} {shape : Shape} {r r' : Record}

/-- The member that a name means is the one in the place that the name means. -/
theorem member?_eq_of_resolve {name : String} {i : Nat} {member : Member Shape} (h : r.resolve name = .ok (i, member)) :
    r.shape.member? r.ns name = r.shape.members[i]? := by
  unfold Record.resolve at h
  split at h
  · cases h
  rename_i hindex
  split at h
  · cases h
  cases h
  rw [Shape.member?, hindex, Option.bind_some]

theorem member?_eq_of_resolveNested {name : String} {i : Nat} (h : r.resolveNested name = .ok (i, shape)) :
    r.shape.member? r.ns name = r.shape.members[i]? := by
  unfold Record.resolveNested at h
  split at h
  · cases h
  · rename_i hresolve
    cases h
    exact member?_eq_of_resolve hresolve
  · cases h

theorem member?_eq_of_resolveTable {name : String} {i : Nat} (h : r.resolveTable name = .ok (i, shape)) :
    r.shape.member? r.ns name = r.shape.members[i]? := by
  unfold Record.resolveTable at h
  split at h
  · cases h
  · rename_i hresolve
    cases h
    exact member?_eq_of_resolve hresolve
  · cases h

/-- What is opened as a nested record is one of the declared shape. -/
theorem openNested_isOf (hr : IsOf f shape r) {name : String} {i : Nat} {inner : Record} {declared description : String}
    {below : Shape} (hm : shape.member? f.ns name = some (.nested declared description below))
    (hok : r.openNested name = .ok (i, inner)) :
    shape.members[i]? = some (.nested declared description below) ∧ IsOf f below inner := by
  obtain ⟨rfl, rfl, hsound⟩ := hr
  obtain ⟨_, hresolve, -⟩ := Record.openNested_eq_ok hok
  obtain ⟨declared', description', found, hat, hinner⟩ := hsound.openNested hok
  have hfound := hm.symm.trans ((member?_eq_of_resolveNested hresolve).trans hat)
  obtain ⟨rfl, rfl, rfl⟩ := Member.nested.inj (Option.some_inj.mp hfound)
  exact ⟨hat, hinner⟩

theorem openTable_isOf (hr : IsOf f shape r) {name : String} {i : Nat} {row : Shape} {rows : List Record}
    {declared description : String} {below : Shape} (hm : shape.member? f.ns name = some (.table declared description below))
    (hok : r.openTable name = .ok (i, row, rows)) :
    row = below ∧ shape.members[i]? = some (.table declared description below) ∧ ∀ x ∈ rows, IsOf f below x := by
  obtain ⟨rfl, rfl, hsound⟩ := hr
  obtain ⟨hresolve, -⟩ := Record.openTable_eq_ok hok
  obtain ⟨declared', description', hat, hrows⟩ := hsound.openTable hok
  have hfound := hm.symm.trans ((member?_eq_of_resolveTable hresolve).trans hat)
  obtain ⟨rfl, rfl, rfl⟩ := Member.table.inj (Option.some_inj.mp hfound)
  exact ⟨rfl, hat, hrows⟩

theorem readRecord_eq (ns : String) (r : Record) (h : Head) (children : List Element) :
    readRecord ns r (.mk h children) = (applyAttributes Record.setWire h r).bind fun r => readMembers ns r children := by
  rw [readRecord]
  cases applyAttributes Record.setWire h r <;> rfl

theorem readMembers_cons (ns : String) (r : Record) (h : Head) (children rest : List Element) :
    readMembers ns r (.mk h children :: rest) =
      if !inNamespace ns h then .error (unexpected ("member in " ++ ns) h)
      else match r.shape.member? r.ns (Name.unescape h.name) with
        | some (.nested _ _ _) => ((r.openNested (Name.unescape h.name)).mapError .model).bind fun p =>
            (readRecord ns p.2 (.mk h children)).bind fun inner => readMembers ns (r.putSlot p.1 (.nested inner)) rest
        | some (.table _ _ _) => (checkAdvisory h).bind fun _ =>
            ((r.openTable (Name.unescape h.name)).mapError .model).bind fun p =>
              (readRows ns (.blank r.function p.2.1) children).bind fun added =>
                readMembers ns (r.putSlot p.1 (.table (p.2.2 ++ added))) rest
        | _ => .error (unexpected ("structure or table member of " ++ r.name) h) := by
  rw [readMembers]
  split
  · rfl
  dsimp only
  rcases r.shape.member? r.ns (Name.unescape h.name) with _ | decl | ⟨_, _, _⟩ | ⟨_, _, _⟩
  · rfl
  · rfl
  · rcases r.openNested (Name.unescape h.name) with e | ⟨i, inner⟩
    · rfl
    · simp only [Except.mapError, Except.bind]
      cases readRecord ns inner (.mk h children) <;> rfl
  · rcases checkAdvisory h with e | ⟨⟩
    · rfl
    rcases r.openTable (Name.unescape h.name) with e | ⟨i, row, rows⟩
    · rfl
    · simp only [Except.mapError, Except.bind]
      cases readRows ns (.blank r.function row) children <;> rfl

theorem readRows_cons (ns : String) (blank : Record) (h : Head) (children rest : List Element) :
    readRows ns blank (.mk h children :: rest) =
      if !h.isNamed none "row" then .error (unexpected "row" h)
      else (readRecord ns blank (.mk h children)).bind fun row =>
        (readRows ns blank rest).bind fun rows => .ok (row :: rows) := by
  rw [readRows]
  split
  · rfl
  cases readRecord ns blank (.mk h children) with
  | error e => rfl
  | ok row =>
    dsimp only [Except.bind]
    cases readRows ns blank rest <;> rfl

theorem openNested_alike (hs : r.seen view = r'.seen view) (name : String) :
    Alike (fun p : Nat × Record => (p.1, p.2.seen view)) (r.openNested name) (r'.openNested name) :=
  Outcome.alike_of_map (by rw [Record.seen_openNested, Record.seen_openNested, hs])

theorem openTable_alike (hs : r.seen view = r'.seen view) (name : String) :
    Alike (fun p : Nat × Shape × List Record => (p.1, p.2.1, p.2.2.map (Record.seen view))) (r.openTable name)
      (r'.openTable name) :=
  Outcome.alike_of_map (by rw [Record.seen_openTable, Record.seen_openTable, hs])

theorem isOf_applyAttributes (hr : IsOf f shape r) {h : Head} (hok : applyAttributes Record.setWire h r = .ok r') :
    IsOf f shape r' := by
  refine applyAttributes_keeps (fun s name text s' hs hset => ?_) hr hok
  obtain ⟨rfl, rfl, hsound⟩ := hs
  exact Record.sound_kept.setWire hsound hset

theorem isOf_readRecord (hr : IsOf f shape r) {e : Element} (hok : readRecord ns r e = .ok r') : IsOf f shape r' := by
  obtain ⟨rfl, rfl, hsound⟩ := hr
  exact readRecord_isOf hsound hok

theorem putNested_isOf (hr : IsOf f shape r) {i : Nat} {declared description : String} {below : Shape}
    (hat : shape.members[i]? = some (.nested declared description below)) {inner : Record} (hinner : IsOf f below inner) :
    IsOf f shape (r.putSlot i (.nested inner)) := by
  obtain ⟨rfl, rfl, hsound⟩ := hr
  exact hsound.putNested hat hinner

theorem putTable_isOf (hr : IsOf f shape r) {i : Nat} {declared description : String} {row : Shape}
    (hat : shape.members[i]? = some (.table declared description row)) {rows more : List Record}
    (hrows : ∀ x ∈ rows, IsOf f row x) (hmore : ∀ x ∈ more, IsOf f row x) :
    IsOf f shape (r.putSlot i (.table (rows ++ more))) := by
  obtain ⟨rfl, rfl, hsound⟩ := hr
  exact hsound.putTable hat fun x hx => (List.mem_append.mp hx).elim (hrows x) (hmore x)

mutual

theorem readRecord_alike : ∀ {e e' : Element} {shape : Shape} {r r' : Record}, IsOf f shape r → IsOf f shape r' →
    r.seen view = r'.seen view → e.Reordered e' → SettledRecord view f.ns shape e →
      Alike (Record.seen view) (readRecord ns r e) (readRecord ns r' e')
  | .mk h children, .mk h' children', shape, r, r', hr, hr', hs, hreordered, hsettled => by
    obtain ⟨hhead, hchildren⟩ := hreordered
    obtain ⟨hgiven, hbelow⟩ := hsettled
    rw [readRecord_eq, readRecord_eq]
    have hfills := record_fills f shape view
    refine (applyAttributes_alike hfills hhead hgiven ⟨hr.1, hr.2.1⟩ ⟨hr'.1, hr'.2.1⟩ hs).bind fun r₁ r₁' hok hok' hs₁ => ?_
    exact readMembers_alike (isOf_applyAttributes hr hok) (isOf_applyAttributes hr' hok') hs₁ hchildren hbelow

theorem readMembers_alike : ∀ {es es' : List Element} {shape : Shape} {r r' : Record}, IsOf f shape r → IsOf f shape r' →
    r.seen view = r'.seen view → AllReordered es es' → SettledMembers view f.ns shape es →
      Alike (Record.seen view) (readMembers ns r es) (readMembers ns r' es')
  | [], [], _, r, r', _, _, hs, _, _ => by
    rw [readMembers, readMembers]
    exact alike_ok.mpr hs
  | [], _ :: _, _, _, _, _, _, _, hreordered, _ => hreordered.elim
  | _ :: _, [], _, _, _, _, _, _, hreordered, _ => hreordered.elim
  | .mk h children :: rest, .mk h' children' :: rest', shape, r, r', hr, hr', hs, hreordered, hsettled => by
    obtain ⟨⟨hhead, hchildren⟩, hrest⟩ := hreordered
    obtain ⟨hmember, hbeside⟩ := hsettled
    have hns : r.ns = f.ns := congrArg Function.ns hr.1
    have hns' : r'.ns = f.ns := congrArg Function.ns hr'.1
    rw [readMembers_cons, readMembers_cons, inNamespace_eq hhead, hhead.name, hr.2.1, hr'.2.1, hns, hns', hr.1, hr'.1]
    split
    · exact alike_error _ _
    rcases hm : shape.member? f.ns (Name.unescape h.name) with _ | ⟨decl⟩ | ⟨declared, description, below⟩ |
      ⟨declared, description, below⟩
    · exact alike_error _ _
    · exact alike_error _ _
    · rw [hm] at hmember
      refine (openNested_alike hs _).mapError.bind ?_
      rintro ⟨i, inner⟩ ⟨i', inner'⟩ hopen hopen' hsame
      obtain ⟨rfl, hinner⟩ := Prod.mk.inj hsame
      obtain ⟨hat, hof⟩ := openNested_isOf hr hm (Outcome.mapError_eq_ok.mp hopen)
      obtain ⟨-, hof'⟩ := openNested_isOf hr' hm (Outcome.mapError_eq_ok.mp hopen')
      have hreordered : (Element.mk h children).Reordered (.mk h' children') := ⟨hhead, hchildren⟩
      refine (readRecord_alike hof hof' hinner hreordered hmember).bind fun x x' hok hok' hx => ?_
      refine readMembers_alike (putNested_isOf hr hat (isOf_readRecord hof hok))
        (putNested_isOf hr' hat (isOf_readRecord hof' hok')) ?_ hrest hbeside
      rw [Record.seen_putSlot, Record.seen_putSlot, hs, Record.seenSlot, Record.seenSlot, hx]
    · rw [hm] at hmember
      refine (checkAdvisory_alike hhead).bind fun _ _ _ _ _ => ?_
      refine (openTable_alike hs _).mapError.bind ?_
      rintro ⟨i, row, rows⟩ ⟨i', row', rows'⟩ hopen hopen' hsame
      obtain ⟨rfl, hsame⟩ := Prod.mk.inj hsame
      obtain ⟨rfl, hrows⟩ := Prod.mk.inj hsame
      obtain ⟨rfl, hat, hof⟩ := openTable_isOf hr hm (Outcome.mapError_eq_ok.mp hopen)
      obtain ⟨-, -, hof'⟩ := openTable_isOf hr' hm (Outcome.mapError_eq_ok.mp hopen')
      have hblank := Record.blank_isOf f row
      refine (readRows_alike hblank hchildren hmember).bind fun xs xs' hok hok' hxs => ?_
      refine readMembers_alike (putTable_isOf hr hat hof (readRows_isOf hblank.2.2 hok))
        (putTable_isOf hr' hat hof' (readRows_isOf hblank.2.2 hok')) ?_ hrest hbeside
      rw [Record.seen_putSlot, Record.seen_putSlot, hs, Record.seenSlot, Record.seenSlot, Record.seenRows_eq_map,
        Record.seenRows_eq_map, List.map_append, List.map_append, hrows, hxs]

theorem readRows_alike : ∀ {es es' : List Element} {row : Shape} {blank : Record}, IsOf f row blank → AllReordered es es' →
    SettledRows view f.ns row es →
      Alike (List.map (Record.seen view)) (readRows ns blank es) (readRows ns blank es')
  | [], [], _, _, _, _, _ => by
    rw [readRows]
    exact Alike.refl _
  | [], _ :: _, _, _, _, hreordered, _ => hreordered.elim
  | _ :: _, [], _, _, _, hreordered, _ => hreordered.elim
  | .mk h children :: rest, .mk h' children' :: rest', row, blank, hb, hreordered, hsettled => by
    obtain ⟨⟨hhead, hchildren⟩, hrest⟩ := hreordered
    obtain ⟨hgiven, hbeside⟩ := hsettled
    rw [readRows_cons, readRows_cons, hhead.isNamed_eq]
    split
    · exact alike_error _ _
    have hreordered : (Element.mk h children).Reordered (.mk h' children') := ⟨hhead, hchildren⟩
    refine (readRecord_alike hb hb rfl hreordered hgiven).bind fun x x' _ _ hx => ?_
    refine (readRows_alike hb hrest hbeside).bind fun xs xs' _ _ hxs => ?_
    refine alike_ok.mpr ?_
    rw [List.map_cons, List.map_cons, hx, hxs]

end

end

/-! ## Texts -/

theorem checkTop_eq (hr : head.Reordered head') (ns : String) (names : List String) :
    checkTop head' ns names = checkTop head ns names := by
  rw [checkTop, checkTop, hr.ns, hr.name, unexpected_eq hr]

theorem topMessageType_eq (hr : head.Reordered head') (reg : Registry) (o : Options) :
    topMessageType reg o head' = topMessageType reg o head := by
  rw [topMessageType, topMessageType, hr.declarations]

theorem topFunction_eq (hr : head.Reordered head') (reg : Registry) (o : Options) :
    topFunction reg o head' = topFunction reg o head := by
  rw [topFunction, topFunction, hr.declarations]

/-- A view through which no field of a document is given twice. -/
def DocumentView (reg : Registry) (o : Options) (e : Element) (view : View SegmentType) : Prop :=
  ∀ m ns, topMessageType reg o e.head = .ok (m, ns) → SettledDocument view m e

/-- A view through which no field of a list of documents is given twice. -/
def BatchView (reg : Registry) (o : Options) (e : Element) (view : View SegmentType) : Prop :=
  ∀ m ns, topMessageType reg o e.head = .ok (m, ns) → ∀ listed ∈ e.children, SettledDocument view m listed

/-- A view through which no field of a parameter set is given twice. -/
def RecordView (reg : Registry) (o : Options) (e : Element) (view : View Shape) : Prop :=
  ∀ f ns, topFunction reg o e.head = .ok (f, ns) →
    SettledRecord view f.ns (if e.head.name == Function.requestName then f.request else f.response) e

theorem decodeDocument_alike (hr : e.Reordered e') (honce : e.head.NamedOnce) {reg : Registry} {o : Options}
    {view : View SegmentType} (hview : DocumentView reg o e view) (creation : Stamp) :
    Alike (Document.seen view) (decodeDocument reg o creation e) (decodeDocument reg o creation e') := by
  rw [decodeDocument, decodeDocument, checkTop_eq hr.head, topMessageType_eq hr.head]
  split
  · exact Alike.refl _
  split
  · exact Alike.refl _
  · rename_i m ns htop
    exact readDocument_alike hr honce (hview m ns htop) creation

theorem decodeBatch_eq (reg : Registry) (o : Options) (creation : Stamp) (e : Element) :
    decodeBatch reg o creation e =
      (checkTop e.head o.idocNamespace ["DocumentList"]).bind fun _ => (checkAdvisory e.head).bind fun _ =>
        (topMessageType reg o e.head).bind fun p => readListed p.2 creation (.new p.1) e.children := by
  rw [decodeBatch]
  rcases checkTop e.head o.idocNamespace ["DocumentList"] with cause | ⟨⟩
  · rfl
  rcases checkAdvisory e.head with cause | ⟨⟩
  · rfl
  cases topMessageType reg o e.head <;> rfl

theorem decodeBatch_alike (hr : e.Reordered e') (honce : ∀ listed ∈ e.children, listed.head.NamedOnce) {reg : Registry}
    {o : Options} {view : View SegmentType} (hview : BatchView reg o e view) (creation : Stamp) :
    Alike (Batch.seen view) (decodeBatch reg o creation e) (decodeBatch reg o creation e') := by
  rw [decodeBatch_eq, decodeBatch_eq, checkTop_eq hr.head, topMessageType_eq hr.head]
  rcases checkTop e.head o.idocNamespace ["DocumentList"] with cause | ⟨⟩
  · exact Alike.refl _
  refine (checkAdvisory_alike hr.head).bind fun _ _ _ _ _ => ?_
  rcases htop : topMessageType reg o e.head with cause | ⟨m, ns⟩
  · exact Alike.refl _
  · exact readListed_alike creation rfl rfl rfl hr.children honce (hview m ns htop)

theorem decodeRecord_alike (hr : e.Reordered e') {reg : Registry} {o : Options} {view : View Shape}
    (hview : RecordView reg o e view) :
    Alike (Record.seen view) (decodeRecord reg o e) (decodeRecord reg o e') := by
  rw [decodeRecord, decodeRecord, checkTop_eq hr.head, topFunction_eq hr.head, hr.head.name]
  split
  · exact Alike.refl _
  split
  · exact Alike.refl _
  rename_i f ns htop
  have hsettled := hview f ns htop
  split
  · rename_i hname
    rw [if_pos hname] at hsettled
    exact readRecord_alike (Record.blank_isOf f _) (Record.blank_isOf f _) rfl hr hsettled
  · rename_i hname
    rw [if_neg hname] at hsettled
    exact readRecord_alike (Record.blank_isOf f _) (Record.blank_isOf f _) rfl hr hsettled

/-- Two outcomes of which at most the values of declared fields can differ, and those only through views that are not
settled. -/
structure OrderFree {σ τ : Type} (seen : View τ → σ → σ) (settled : View τ → Prop) (x y : Except XmlError σ) : Prop where
  /-- Both fail, or both succeed with what looks the same but for values. -/
  outline : Alike (seen .hidden) x y
  /-- Whatever is seen of fields, one alone or all but some, is the same where it is settled. -/
  seen (view : View τ) : settled view → Alike (seen view) x y
  same : settled .whole → x.toOption = y.toOption

theorem head_mem_heads (e : Element) : e.head ∈ e.heads := by
  obtain ⟨h, es⟩ := e
  exact List.mem_cons_self

theorem child_mem_heads {child : Element} (h : child ∈ e.children) : child.head ∈ e.heads := by
  obtain ⟨head, es⟩ := e
  refine List.mem_cons_of_mem _ ?_
  induction es with
  | nil => cases h
  | cons first rest ih =>
    rw [Markup.Element.headsOf, List.mem_append]
    rcases List.mem_cons.mp h with rfl | h
    · exact .inl (head_mem_heads _)
    · exact .inr (ih h)

/-! ## A label with one part -/

def labelOptions : Options := { base := "b" }

/-- A label whose part has attributes, as it is written. -/
def writtenLabel (attrs : List (String × String)) : Written :=
  .mk ("idoc" ++ ":" ++ "Document") ([("xmlns:" ++ "idoc", "b/idoc"), ("xmlns:" ++ "m", "b/idoc/R/_-BIZ_-LABEL///")] ++ [])
    [.mk "rootSegment" [] [.mk "segmentChildren" [] [.mk "PART" attrs []]]]

/-- What it is read as. -/
def labelElement (attrs : List (String × String)) : Element :=
  .mk ⟨some "b/idoc", "Document", [("idoc", "b/idoc"), ("m", "b/idoc/R/_-BIZ_-LABEL///")], []⟩
    [.mk ⟨none, "rootSegment", [], []⟩ [.mk ⟨none, "segmentChildren", [], []⟩ [.mk ⟨none, "PART", [], readAs attrs⟩ []]]]

theorem elementOfText_label {attrs : List (String × String)} (hs : ∀ a ∈ attrs, Simple a.1)
    (hnd : (attrs.map (·.1)).Nodup) :
    elementOfText ((writtenLabel attrs).text 0 false) = .ok (labelElement attrs) := by
  have hkind : Declarable "idoc" "b/idoc" :=
    ⟨by decide, by decide, by decide, by decide, by decide, by decide, by decide⟩
  have hmessage : Declarable "m" "b/idoc/R/_-BIZ_-LABEL///" :=
    ⟨by decide, by decide, by decide, by decide, by decide, by decide, by decide⟩
  have hbound := bound_messageScope hkind hmessage
  have hnone : ∀ a ∈ ([] : List (String × String)), Simple a.1 := fun a ha => (List.not_mem_nil ha).elim
  let scope := messageScope "idoc" "b/idoc" "m" "b/idoc/R/_-BIZ_-LABEL///"
  have hpart : Plain scope (.mk "PART" attrs []) := plain_bare (by decide) (by decide) hs hnd trivial
  have hwrapper : Plain scope (.mk "segmentChildren" [] [.mk "PART" attrs []]) :=
    plain_bare (by decide) (by decide) hnone .nil ⟨hpart, trivial⟩
  have hroot : Plain scope (.mk "rootSegment" [] [.mk "segmentChildren" [] [.mk "PART" attrs []]]) :=
    plain_bare (by decide) (by decide) hnone .nil ⟨hwrapper, trivial⟩
  have hall : Markup.AllPlain scope [.mk "rootSegment" [] [.mk "segmentChildren" [] [.mk "PART" attrs []]]] :=
    ⟨hroot, trivial⟩
  rw [writtenLabel, elementOfText_top hkind hmessage (by decide) (by decide) hnone .nil hall]
  simp only [elementsIn, elementIn_bare hbound (show ':' ∉ "rootSegment".toList by decide),
    elementIn_bare hbound (show ':' ∉ "segmentChildren".toList by decide),
    elementIn_bare hbound (show ':' ∉ "PART".toList by decide)]
  rfl

theorem labelElement_reordered {attrs attrs' : List (String × String)} (h : attrs.Perm attrs') :
    (labelElement attrs).Reordered (labelElement attrs') :=
  ⟨⟨rfl, rfl, rfl, .nil⟩, ⟨⟨rfl, rfl, rfl, .nil⟩, ⟨⟨rfl, rfl, rfl, .nil⟩, ⟨⟨rfl, rfl, rfl, h.map _⟩, trivial⟩, trivial⟩,
    trivial⟩, trivial⟩

/-- The number of a part in its own namespace, by its local name. -/
def ownNumber : String × String := ("NUMBER", "7")

/-- Another value for the same number, by its qualified name. -/
def qualifiedNumber : String × String := ("_-BIZ_-NUMBER", "8")

/-- The number of a part in the other namespace. -/
def otherNumber : String × String := ("_-OTH_-NUMBER", "8")

def decodeLabel (attrs : List (String × String)) : Except XmlError Document :=
  decodeDocument Document.labels labelOptions Document.onePart.creation (labelElement attrs)

/-! ## Any order -/

/-- The attributes of a text that was read, in any order in their tags: what is decoded does not depend on the order,
except for the values of a declared field that a tag gives twice, by different names and in a way that can be seen. -/
theorem attributes_reordered (reg : Registry) (o : Options) (creation : Stamp) {text : String}
    (hread : elementOfText text = .ok e) (hr : e.Reordered e') :
    OrderFree Document.seen (DocumentView reg o e) (decodeDocument reg o creation e) (decodeDocument reg o creation e') ∧
    OrderFree Batch.seen (BatchView reg o e) (decodeBatch reg o creation e) (decodeBatch reg o creation e') ∧
    OrderFree Record.seen (RecordView reg o e) (decodeRecord reg o e) (decodeRecord reg o e') := by
  have honce := Markup.namedOnce_of_ofText (Outcome.mapError_eq_ok.mp hread)
  have hdocument := fun view (hview : DocumentView reg o e view) =>
    decodeDocument_alike hr (honce _ (head_mem_heads e)) hview creation
  have hbatch := fun view (hview : BatchView reg o e view) =>
    decodeBatch_alike hr (fun _ hx => honce _ (child_mem_heads hx)) hview creation
  have hrecord := fun view (hview : RecordView reg o e view) => decodeRecord_alike hr hview
  refine ⟨⟨?_, hdocument, ?_⟩, ⟨?_, hbatch, ?_⟩, ⟨?_, hrecord, ?_⟩⟩
  · exact hdocument _ fun m _ _ => settledDocument_hidden m e
  · intro hview
    exact (hdocument .whole hview).toOption_eq fun d d' h => by rwa [d.seen_whole, d'.seen_whole] at h
  · exact hbatch _ fun m _ _ listed _ => settledDocument_hidden m listed
  · intro hview
    exact (hbatch .whole hview).toOption_eq fun b b' h => by rwa [b.seen_whole, b'.seen_whole] at h
  · exact hrecord _ fun f _ _ => settledRecord_hidden f.ns _ e
  · intro hview
    exact (hrecord .whole hview).toOption_eq fun r r' h => by rwa [r.seen_whole, r'.seen_whole] at h

/-- The two numbers of a part are different fields, so their attributes may change places. -/
theorem attributes_reordered_label :
    elementOfText ((writtenLabel [ownNumber, otherNumber]).text 0 false) = .ok (labelElement [ownNumber, otherNumber]) ∧
      ∃ d, decodeLabel [ownNumber, otherNumber] = .ok d ∧ decodeLabel [otherNumber, ownNumber] = .ok d := by
  have hread : elementOfText ((writtenLabel [ownNumber, otherNumber]).text 0 false) =
      .ok (labelElement [ownNumber, otherNumber]) := elementOfText_label (by decide) (by decide)
  have hreordered := labelElement_reordered (.swap otherNumber ownNumber [])
  have hsame : DocumentView Document.labels labelOptions (labelElement [ownNumber, otherNumber]) .whole →
      (decodeLabel [ownNumber, otherNumber]).toOption = (decodeLabel [otherNumber, ownNumber]).toOption :=
    (attributes_reordered Document.labels labelOptions Document.onePart.creation hread hreordered).1.same
  have hview : DocumentView Document.labels labelOptions (labelElement [ownNumber, otherNumber]) .whole := by
    intro m ns htop root hroot
    cases hroot
    obtain rfl : m = Document.labelSchema := List.mem_singleton.mp (topMessageType_mem htop)
    refine ⟨fun a ha => (List.not_mem_nil ha).elim, ⟨⟨?_, trivial⟩, trivial⟩⟩
    intro slot child hchild
    obtain ⟨slot', -, hfound⟩ := Option.bind_eq_some_iff.mp hchild
    obtain ⟨type, htype, he⟩ := Option.map_eq_some_iff.mp hfound
    cases he
    let place? (t : SegmentType) (a : Attribute) := t.fieldIndex? Document.labelSchema.ns (given a).1
    have hnames : ∀ t ∈ Document.labelSchema.allSegments, ∀ a ∈ readAs [ownNumber, otherNumber],
        ∀ b ∈ readAs [ownNumber, otherNumber], place? t a = place? t b → a = b ∨ place? t a = none := by
      decide +kernel
    exact ⟨settled_of_names (hnames child (List.mem_of_find?_eq_some htype)), trivial⟩
  refine ⟨hread, ?_⟩
  obtain ⟨d, hd⟩ := Outcome.exists_ok (x := decodeLabel [ownNumber, otherNumber]) (by decide +kernel)
  refine ⟨d, hd, Outcome.toOption_eq_some.mp ?_⟩
  rw [← hsame hview, hd]
  rfl

/-- Two attributes that mean one field by different names are both read, and the one that comes later stays. -/
theorem repeatedNumber_positional :
    elementOfText ((writtenLabel [ownNumber, qualifiedNumber]).text 0 false) =
        .ok (labelElement [ownNumber, qualifiedNumber]) ∧
      (labelElement [ownNumber, qualifiedNumber]).Reordered (labelElement [qualifiedNumber, ownNumber]) ∧
      ∃ d d', decodeLabel [ownNumber, qualifiedNumber] = .ok d ∧ decodeLabel [qualifiedNumber, ownNumber] = .ok d' ∧
        d.get 1 "NUMBER" = .ok (some (.integer 8)) ∧ d'.get 1 "NUMBER" = .ok (some (.integer 7)) := by
  refine ⟨elementOfText_label (by decide) (by decide), labelElement_reordered (.swap _ _ _), ?_⟩
  obtain ⟨d, value?, hd, hvalue, height⟩ := Outcome.exists_ok_ok (x := decodeLabel [ownNumber, qualifiedNumber])
    (f := (·.get 1 "NUMBER")) (p := (· == some (.integer 8))) (by decide +kernel)
  obtain ⟨d', value?', hd', hvalue', hseven⟩ := Outcome.exists_ok_ok (x := decodeLabel [qualifiedNumber, ownNumber])
    (f := (·.get 1 "NUMBER")) (p := (· == some (.integer 7))) (by decide +kernel)
  refine ⟨d, d', hd, hd', ?_, ?_⟩
  · rw [hvalue, eq_of_beq height]
  · rw [hvalue', eq_of_beq hseven]

end DocWire.Xml
