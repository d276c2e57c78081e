/-
  DocWire.Proofs.Parameters.Arise — the parameter sets that come about, those that are read among them.

  Beside edits there are two readers. One makes a parameter set from XML; the other fills one from a connector's
  native form, and leaves it filled as far as it came when a value is refused. Both open members and put into
  slots what was decoded or opened, so they keep whatever such steps keep (`recordOfText_keeps`, `fill_keeps`); and
  what they make is sound as every edited set is (`Arises.sound`).
-/

import DocWire.Connector.Consume
import DocWire.Proofs.Document.Reach
import DocWire.Proofs.Parameters.Reach
import DocWire.Xml.Decode

namespace DocWire

namespace Xml

open Record (Has IsOf Kept)

variable {P : Record → Prop}

mutual

/-- What is kept is kept by the reader of records, whatever it reads. -/
theorem readRecord_keeps (hk : Kept P) {ns : String} : ∀ {e : Markup.Element} {r r' : Record}, P r →
    readRecord ns r e = .ok r' → Has P r.function r.shape r'
  | .mk h children, r, r', hr, hok => by
    unfold readRecord at hok
    split at hok
    · cases hok
    rename_i r₁ hr₁
    have hset : ∀ s name text s', Has P r.function r.shape s → s.setWire name text = .ok s' →
        Has P r.function r.shape s' := by
      rintro s name text s' ⟨hf, hs, hp⟩ hset
      have hkept := hk.setWire hp hset
      rwa [hf, hs] at hkept
    obtain ⟨hf, hs, hp⟩ := applyAttributes_keeps hset ⟨rfl, rfl, hr⟩ hr₁
    have hmembers := readMembers_keeps hk hp hok
    rwa [hf, hs] at hmembers

theorem readMembers_keeps (hk : Kept P) {ns : String} : ∀ {es : List Markup.Element} {r r' : Record}, P r →
    readMembers ns r es = .ok r' → Has P r.function r.shape r'
  | [], r, r', hr, hok => by
    simp only [readMembers, Except.ok.injEq] at hok
    subst hok
    exact ⟨rfl, rfl, hr⟩
  | .mk h children :: rest, r, r', hr, hok => by
    unfold readMembers at hok
    split at hok
    · cases hok
    simp only at hok
    split at hok
    · split at hok
      · cases hok
      rename_i i inner hopen
      split at hok
      · cases hok
      rename_i inner' hinner
      obtain ⟨declared, description, shape, hm, hf, hs, hp⟩ := hk.openNested hr hopen
      have hread := readRecord_keeps hk hp hinner
      rw [hf, hs] at hread
      have hmembers := readMembers_keeps hk (hk.putNested hr hm hread) hok
      exact hmembers
    · split at hok
      · cases hok
      split at hok
      · cases hok
      rename_i i row rows hopen
      split at hok
      · cases hok
      rename_i added hadded
      obtain ⟨declared, description, hm, hrows⟩ := hk.openTable hr hopen
      have hnew := readRows_keeps hk (hk.blank r.function row) hadded
      have hall : ∀ x ∈ rows ++ added, Has P r.function row x := by
        intro x hx
        rcases List.mem_append.mp hx with hx | hx
        · exact hrows x hx
        · exact hnew x hx
      have hmembers := readMembers_keeps hk (hk.putTable hr hm hall) hok
      exact hmembers
    · cases hok

theorem readRows_keeps (hk : Kept P) {ns : String} {blank : Record} (hb : P blank) : ∀ {es : List Markup.Element}
    {rows : List Record}, readRows ns blank es = .ok rows → ∀ x ∈ rows, Has P blank.function blank.shape x
  | [], rows, hok => by
    simp only [readRows, Except.ok.injEq] at hok
    subst hok
    intro x hx
    cases hx
  | .mk h children :: rest, rows, hok => by
    unfold readRows at hok
    split at hok
    · cases hok
    split at hok
    · cases hok
    rename_i row hrow
    obtain ⟨rows', hrest, rfl⟩ := Outcome.map_eq_ok.mp hok
    intro x hx
    rcases List.mem_cons.mp hx with rfl | hx
    · exact readRecord_keeps hk hb hrow
    · exact readRows_keeps hk hb hrest x hx

end

theorem readRecord_isOf {ns : String} {e : Markup.Element} {r r' : Record} (hr : r.Sound)
    (hok : readRecord ns r e = .ok r') : IsOf r.function r.shape r' :=
  readRecord_keeps Record.sound_kept hr hok

theorem readRows_isOf {ns : String} {blank : Record} (hb : blank.Sound) {es : List Markup.Element} {rows : List Record}
    (hok : readRows ns blank es = .ok rows) : ∀ x ∈ rows, IsOf blank.function blank.shape x :=
  readRows_keeps Record.sound_kept hb hok

/-- A parameter set that is read from XML is a request or a response of a function, read into a blank one. -/
theorem recordOfText_keeps (hk : Kept P) {reg : Registry} {o : Options} {text : String} {r : Record}
    (hok : recordOfText reg o text = .ok r) :
    r.function ∈ reg.functions ∧ (r.shape = r.function.request ∨ r.shape = r.function.response) ∧ P r := by
  obtain ⟨e, -, hd⟩ := Outcome.bind_eq_ok.mp hok
  unfold decodeRecord at hd
  split at hd
  · cases hd
  split at hd
  · cases hd
  rename_i f ns htop
  have hf : f ∈ reg.functions := by
    unfold topFunction at htop
    split at htop
    · cases htop
    · obtain ⟨f', hf', he⟩ := Outcome.map_eq_ok.mp htop
      cases he
      exact Registry.function_mem (Outcome.mapError_eq_ok.mp hf')
  by_cases hname : (e.head.name == Function.requestName) = true
  · rw [if_pos hname] at hd
    obtain ⟨hfunction, hshape, hp⟩ := readRecord_keeps hk (hk.blank f f.request) hd
    exact ⟨hfunction ▸ hf, .inl (hshape.trans (congrArg Function.request hfunction.symm)), hp⟩
  · rw [if_neg hname] at hd
    obtain ⟨hfunction, hshape, hp⟩ := readRecord_keeps hk (hk.blank f f.response) hd
    exact ⟨hfunction ▸ hf, .inr (hshape.trans (congrArg Function.response hfunction.symm)), hp⟩

end Xml

namespace Native

open Record (Has IsOf Kept)

variable {P : Record → Prop}

/-- What a declared field is given was decoded. -/
theorem decodeField_eq_ok {values : WireValues} {decl : FieldDecl} {v : Value}
    (h : decodeField values decl = .ok (some v)) : ∃ text, Coercion.decodeWire decl.format text = .ok (some v) := by
  unfold decodeField at h
  split at h
  · cases h
  · exact ⟨_, Outcome.mapError_eq_ok.mp h⟩

/-- One row is filled behind those that are done, unless the filling has stopped. -/
def fillRow (f : Function) (row : Shape) : List Record × Option ConnectorError → NativeRecord →
    List Record × Option ConnectorError
  | (rows, some e), _ => (rows, some e)
  | (rows, none), n => (rows ++ [(fill row (.blank f row) n).1], (fill row (.blank f row) n).2)

theorem fillMember_table {i : Nat} {name description : String} {row : Shape} {target : Record} {n : NativeRecord} :
    fillMember i (.table name description row) target n =
      let filled := (n.rows name).foldl (fillRow target.function row)
        ((match target.slotAt i with | .table rows => rows | _ => []), none)
      (target.putSlot i (.table filled.1), filled.2) := by
  rw [fillMember]
  rfl

mutual

/-- What is kept is kept by the filling of records, also when it is stopped. -/
theorem fill_keeps (hk : Kept P) : ∀ (shape : Shape) {target : Record} {n : NativeRecord}, P target →
    target.shape = shape → Has P target.function target.shape (fill shape target n).1
  | .mk name description members, target, n, hr, hs => by
    rw [fill]
    refine fillMembers_keeps hk members hr ?_
    rw [hs]
    rfl

/-- The members from place `i` on are filled; those before it are left alone. -/
theorem fillMembers_keeps (hk : Kept P) : ∀ (ms : List (Member Shape)) {i : Nat} {target : Record} {n : NativeRecord},
    P target → target.shape.members.drop i = ms → Has P target.function target.shape (fillMembers i ms target n).1
  | [], i, target, n, hr, _ => by
    rw [fillMembers]
    exact ⟨rfl, rfl, hr⟩
  | m :: rest, i, target, n, hr, hdrop => by
    obtain ⟨hm, hnext⟩ := Lookup.drop_cons hdrop
    have hone := fillMember_keeps hk m (n := n) hr hm
    rw [fillMembers]
    split
    · rename_i r e he
      rw [he] at hone
      exact hone
    · rename_i r he
      rw [he] at hone
      obtain ⟨hf, hs, hp⟩ := hone
      have hmore := fillMembers_keeps hk rest (i := i + 1) (n := n) hp (by rw [hs, hnext])
      rwa [hf, hs] at hmore

theorem fillMember_keeps (hk : Kept P) : ∀ (m : Member Shape) {i : Nat} {target : Record} {n : NativeRecord}, P target →
    target.shape.members[i]? = some m → Has P target.function target.shape (fillMember i m target n).1
  | .field decl, i, target, n, hr, hm => by
    rw [fillMember]
    split
    · exact ⟨rfl, rfl, hr⟩
    · rename_i v hv
      obtain ⟨text, hdecode⟩ := decodeField_eq_ok hv
      exact ⟨rfl, rfl, hk.putValue hr hm hdecode⟩
    · exact ⟨rfl, rfl, hr⟩
  | .nested name description shape, i, target, n, hr, hm => by
    rw [fillMember]
    split
    · exact ⟨rfl, rfl, hr⟩
    · rename_i inner _
      have hstart : Has P target.function shape (match target.slotAt i with
          | .nested r => r
          | _ => .blank target.function shape) := by
        split
        · rename_i r hheld
          exact hk.nestedAt hr hm hheld
        · exact ⟨rfl, rfl, hk.blank _ _⟩
      obtain ⟨hf, hs, hp⟩ := hstart
      have hfilled := fill_keeps hk shape (n := inner) hp hs
      rw [hf, hs] at hfilled
      exact ⟨rfl, rfl, hk.putNested hr hm hfilled⟩
  | .table name description row, i, target, n, hr, hm => by
    rw [fillMember_table]
    have hstart : ∀ x ∈ (match target.slotAt i with
        | .table rows => rows
        | _ => []), Has P target.function row x := by
      split
      · rename_i rows hheld
        exact hk.rowsAt hr hm hheld
      · intro x hx
        cases hx
    refine ⟨rfl, rfl, hk.putTable hr hm ?_⟩
    -- every row is filled from a blank one, up to the first that stops the filling
    refine List.foldlRecOn (motive := fun (acc : List Record × Option ConnectorError) =>
      ∀ x ∈ acc.1, Has P target.function row x) _ _ hstart ?_
    rintro ⟨rows, stopped⟩ hrows native -
    cases stopped with
    | some e => exact hrows
    | none =>
      intro x hx
      rcases List.mem_append.mp hx with hx | hx
      · exact hrows x hx
      · rw [List.mem_singleton.mp hx]
        exact fill_keeps hk row (n := native) (hk.blank target.function row) rfl

end

/-! ## Filling members by name -/

/-- What a member does to a record that is being filled, unless the filling has stopped: a field is set by its declared
name as soon as it is decoded, a nested record and a table are opened by theirs. -/
def fillDeclared (n : NativeRecord) : Filled → Member Shape → Filled
  | (target, some e), _ => (target, some e)
  | (target, none), .field decl =>
    match decodeField n.values decl with
    | .error e => (target, some e)
    | .ok none => (target, none)
    | .ok (some v) =>
      match target.set decl.name v with
      | .error e => (target, some (.model e))
      | .ok target => (target, none)
  | (target, none), .nested name _ _ =>
    match n.nested.lookup name with
    | none => (target, none)
    | some inner =>
      match target.openNested name with
      | .error e => (target, some (.model e))
      | .ok (i, start) => (target.putSlot i (.nested (readRecord start inner).1), (readRecord start inner).2)
  | (target, none), .table name _ _ =>
    match target.openTable name with
    | .error e => (target, some (.model e))
    | .ok (i, row, rows) =>
      let filled := (n.rows name).foldl (fillRow target.function row) (rows, none)
      (target.putSlot i (.table filled.1), filled.2)

section

variable {target : Record} {n : NativeRecord}

/-- The slot that is put by its place is the one that the declared name means. -/
theorem fillMember_eq (hr : target.Sound) (hd : target.shape.Distinct) {i : Nat} {m : Member Shape}
    (hm : target.shape.members[i]? = some m) : fillMember i m target n = fillDeclared n (target, none) m := by
  cases m with
  | field decl =>
    rw [fillMember, fillDeclared]
    cases hdecode : decodeField n.values decl with
    | error e => rfl
    | ok value? =>
      cases value? with
      | none => rfl
      | some v =>
        have hset : target.set decl.name v = .ok (target.putSlot i (.value v)) := by
          simp only [Record.set, Record.changeField, Record.resolveField_declared hd hm, FieldDecl.accept,
            if_pos (decodeField_kind hdecode)]
        simp only [hset]
  | nested name description shape =>
    rw [fillMember, fillDeclared]
    cases n.nested.lookup name with
    | none => rfl
    | some inner =>
      have hslot := hr.slotAt hm
      simp only [Record.openNested, Record.resolveNested_declared hd hm, Outcome.map_ok]
      cases hheld : target.slotAt i with
      | nested held =>
        rw [hheld] at hslot
        obtain ⟨-, rfl, -⟩ := hslot
        rfl
      | absent | value _ | table _ => rfl
  | table name description row =>
    rw [fillMember_table, fillDeclared]
    simp only [Record.openTable, Record.resolveTable_declared hd hm, Outcome.map_ok]
    cases target.slotAt i with
    | table rows => rfl
    | absent | value _ | nested _ => rfl

/-- A filling that has stopped is left as it is. -/
theorem foldl_fillDeclared_stopped {e : ConnectorError} (ms : List (Member Shape)) :
    ms.foldl (fillDeclared n) (target, some e) = (target, some e) := by
  induction ms with
  | nil => rfl
  | cons m rest ih => exact ih

theorem fillMembers_eq : ∀ (ms : List (Member Shape)) {i : Nat} {target : Record}, target.Sound → target.shape.Distinct →
    target.shape.members.drop i = ms → fillMembers i ms target n = ms.foldl (fillDeclared n) (target, none) := by
  intro ms
  induction ms with
  | nil =>
    intro i target _ _ _
    rw [fillMembers]
    rfl
  | cons m rest ih =>
    intro i target hr hd hdrop
    obtain ⟨hm, hnext⟩ := Lookup.drop_cons hdrop
    have hkept := fillMember_keeps Record.sound_kept m (n := n) hr hm
    rw [fillMembers, List.foldl_cons, ← fillMember_eq hr hd hm]
    cases hfilled : fillMember i m target n with
    | mk next stopped =>
      rw [hfilled] at hkept
      obtain ⟨-, hs, hsound⟩ := hkept
      cases stopped with
      | some e => exact (foldl_fillDeclared_stopped rest).symm
      | none => exact ih hsound (hs ▸ hd) (by rw [hs, hnext])

/-- Filling a record slot by slot comes to the same as filling every member by its declared name, in the order of
declaration: the same record, also where the filling stops, and the same failure. -/
theorem readRecord_eq (hr : target.Sound) (hd : target.shape.Distinct) (n : NativeRecord) :
    readRecord target n = target.shape.members.foldl (fillDeclared n) (target, none) := by
  rw [← fillMembers_eq target.shape.members hr hd List.drop_zero, readRecord]
  cases target.shape with
  | mk name description members =>
    rw [fill]
    rfl

end

end Native

namespace Record

/-- The parameter sets that come about: made empty, read from XML, filled from a native record, and edited. -/
inductive Arises (reg : Registry) : Record → Prop
  | made (r : Record) : Reach reg r → Arises reg r
  | decoded (o : Options) (text : String) (r : Record) : Xml.recordOfText reg o text = .ok r → Arises reg r
  | filled (r : Record) (n : NativeRecord) : Arises reg r → Arises reg (Native.readRecord r n).1
  | edit (r : Record) (path : List Step) (e : Edit) : Arises reg r → Arises reg (r.editBelow path e)

theorem Arises.sound {reg : Registry} {r : Record} (h : Arises reg r) :
    r.function ∈ reg.functions ∧ (r.shape = r.function.request ∨ r.shape = r.function.response) ∧ r.Sound := by
  induction h with
  | made r hr => exact hr.sound
  | decoded o text r hok => exact Xml.recordOfText_keeps sound_kept hok
  | filled r n _ ih =>
    obtain ⟨hf, hshape, hsound⟩ := ih
    obtain ⟨hf', hs', hsound'⟩ : IsOf r.function r.shape (Native.readRecord r n).1 :=
      Native.fill_keeps sound_kept r.shape hsound rfl
    rw [hf', hs']
    exact ⟨hf, hshape, hsound'⟩
  | edit r path e _ ih =>
    obtain ⟨hf, hshape, hsound⟩ := ih
    obtain ⟨hf', hs', hsound'⟩ : IsOf r.function r.shape (r.editBelow path e) :=
      hsound.editAt (fun r h => h.edit e) path
    rw [hf', hs']
    exact ⟨hf, hshape, hsound'⟩

/-- The members of what arises are told apart, at every depth. -/
theorem Arises.distinct {schema : Definition} {reg : Registry} (hreg : Registry.compile schema = .ok reg) {r : Record}
    (h : Arises reg r) : r.shape.Distinct := by
  obtain ⟨hf, hshape, -⟩ := h.sound
  have hresolved := (Registry.compile_functions hreg).1 _ hf
  rcases hshape with hs | hs
  · exact hs ▸ hresolved.request
  · exact hs ▸ hresolved.response

/-- What arises is filled by name: every name is found, and found in its own place. -/
theorem Arises.readRecord_eq {schema : Definition} {reg : Registry} (hreg : Registry.compile schema = .ok reg) {r : Record}
    (h : Arises reg r) (n : NativeRecord) :
    Native.readRecord r n = r.shape.members.foldl (Native.fillDeclared n) (r, none) := by
  obtain ⟨-, -, hsound⟩ := h.sound
  exact Native.readRecord_eq hsound (h.distinct hreg) n

end Record

end DocWire
