/-
  DocWire.Proofs.Connector.Calls — what is called, through any connector.

  A call is let through where the record has the name of a request. Every request shape has it and no response
  shape does, so among whole parameter sets the requests alone are let through. But the name is looked at, not the
  shape. The records within a parameter set are of structures of the registry (`Arises.shape_within`), and a
  structure may be defined under that very name; a record of it is then called although it is not the request of
  its function (`cover_called`). Where no structure has the name, only requests are called (`calls_guarded`).

  Whatever a call answers is a response that was filled from a native record (`call_arises`).
-/

import DocWire.Proofs.Connector.Port

namespace DocWire

/-! ## What stops a conversion -/

/-- The error of a call that is refused because of the record. -/
def ConnectorError.IsRefusal (e : ConnectorError) : Prop := ∃ function actual, e = .notARequest function actual

namespace NativeStructure

variable {ρ : Type} {ops : NativeStructure ρ} {e : ConnectorError}

theorem encodeField_error {decl : FieldDecl} {value : Value} (h : Native.encodeField decl value = .error e) :
    ¬ e.IsRefusal := by
  rintro ⟨function, actual, rfl⟩
  rw [Native.encodeField] at h
  cases hencode : Coercion.encode decl.format value <;> rw [hencode] at h <;> cases h

theorem writeEntries_error {entries : List (FieldDecl × Value)} {native : ρ}
    (h : ops.writeEntries entries native = .error e) : ¬ e.IsRefusal := by
  induction entries generalizing native with
  | nil =>
    rw [writeEntries] at h
    cases h
  | cons entry rest ih =>
    rw [writeEntries] at h
    split at h
    · rename_i hencode
      cases h
      exact encodeField_error hencode
    split at h
    · cases h
      rintro ⟨function, actual, h⟩
      cases h
    · exact ih h

mutual

theorem write_error : ∀ (r : Record) {native : ρ}, ops.write r native = .error e → ¬ e.IsRefusal
  | .mk f shape slots, native, h => by
    rw [write] at h
    split at h
    · rename_i hentries
      cases h
      exact writeEntries_error hentries
    · exact writeSlots_error slots h

theorem writeSlots_error : ∀ (slots : List (Slot Record)) {names : List String} {native : ρ},
    ops.writeSlots names slots native = .error e → ¬ e.IsRefusal
  | [], names, native, h => by
    rw [writeSlots] at h
    cases h
  | slot :: rest, names, native, h => by
    rw [writeSlots] at h
    split at h
    · rename_i hslot
      cases h
      exact writeSlot_error slot hslot
    · exact writeSlots_error rest h

theorem writeSlot_error : ∀ (slot : Slot Record) {name : String} {native : ρ},
    ops.writeSlot name slot native = .error e → ¬ e.IsRefusal
  | .absent, name, native, h => by
    rw [writeSlot] at h
    cases h
  | .value v, name, native, h => by
    rw [writeSlot] at h
    cases h
  | .nested r, name, native, h => by
    rw [writeSlot] at h
    split at h
    · cases h
      rintro ⟨function, actual, h⟩
      cases h
    · rename_i inner putBack _
      cases hwrite : ops.write r inner with
      | error e' =>
        rw [hwrite] at h
        cases h
        exact write_error r hwrite
      | ok native' =>
        rw [hwrite] at h
        cases h
  | .table rows, name, native, h => by
    rw [writeSlot] at h
    exact writeRows_error rows h

theorem writeRows_error : ∀ (rows : List Record) {table : String} {native : ρ},
    ops.writeRows table rows native = .error e → ¬ e.IsRefusal
  | [], table, native, h => by
    rw [writeRows] at h
    cases h
  | r :: rest, table, native, h => by
    rw [writeRows] at h
    split at h
    · cases h
      rintro ⟨function, actual, h⟩
      cases h
    split at h
    · rename_i hwrite
      cases h
      exact write_error r hwrite
    · exact writeRows_error rest h

end

end NativeStructure

namespace Native

theorem decodeField_error {values : WireValues} {decl : FieldDecl} {e : ConnectorError}
    (h : decodeField values decl = .error e) : ¬ e.IsRefusal := by
  rintro ⟨function, actual, rfl⟩
  rw [decodeField] at h
  split at h
  · cases h
  · rename_i text _
    cases hdecode : Coercion.decodeWire decl.format text <;> rw [hdecode] at h <;> cases h

mutual

theorem fill_error : ∀ (shape : Shape) {target : Record} {n : NativeRecord} {e : ConnectorError},
    (fill shape target n).2 = some e → ¬ e.IsRefusal
  | .mk name description ms, target, n, e, h => by
    rw [fill] at h
    exact fillMembers_error ms h

theorem fillMembers_error : ∀ (ms : List (Member Shape)) {i : Nat} {target : Record} {n : NativeRecord} {e : ConnectorError},
    (fillMembers i ms target n).2 = some e → ¬ e.IsRefusal
  | [], i, target, n, e, h => by
    rw [fillMembers] at h
    cases h
  | m :: rest, i, target, n, e, h => by
    rw [fillMembers] at h
    split at h
    · rename_i hone
      cases h
      exact fillMember_error m (congrArg Prod.snd hone)
    · exact fillMembers_error rest h

theorem fillMember_error : ∀ (m : Member Shape) {i : Nat} {target : Record} {n : NativeRecord} {e : ConnectorError},
    (fillMember i m target n).2 = some e → ¬ e.IsRefusal
  | .field decl, i, target, n, e, h => by
    rw [fillMember] at h
    split at h
    · rename_i hdecode
      cases h
      exact decodeField_error hdecode
    · cases h
    · cases h
  | .nested name description shape, i, target, n, e, h => by
    rw [fillMember] at h
    split at h
    · cases h
    · exact fill_error shape h
  | .table name description row, i, target, n, e, h => by
    rw [fillMember_table] at h
    refine List.foldlRecOn (motive := fun (acc : List Record × Option ConnectorError) =>
      acc.2 = some e → ¬ e.IsRefusal) _ _ ?_ ?_ h
    · intro h
      cases h
    · rintro ⟨rows, stopped⟩ hstopped native -
      cases stopped with
      | some e => exact hstopped
      | none => exact fill_error row

end

end Native

/-! ## The records that have the name of a request -/

namespace Record

variable {schema : Definition} {reg : Registry} {top x : Record}

/-- A record within a parameter set is the parameter set, or of a structure of the registry. -/
theorem Arises.shape_within (hr : Registry.compile schema = .ok reg) (h : Arises reg top) (hx : x ∈ top.preorder) :
    x = top ∨ x.shape ∈ reg.structures := by
  obtain ⟨hdone, hfunctions⟩ := Registry.compile_shapes hr
  obtain ⟨hf, hshape, hsound⟩ := h.sound
  have htop : Compile.RefersTo reg.structures top.shape.members := by
    rcases hshape with hs | hs
    · exact hs ▸ (hfunctions _ hf).1
    · exact hs ▸ (hfunctions _ hf).2
  have hpasses : Passes fun y =>
      y.Sound ∧ Compile.RefersTo reg.structures y.shape.members ∧ (y = top ∨ y.shape ∈ reg.structures) := by
    rintro y z ⟨hy, hrefs, -⟩ hz
    obtain ⟨m, hm, shape, href, -, rfl, hsoundz⟩ := hy.holds hz
    have hmem := hrefs m hm z.shape href
    exact ⟨hsoundz, hdone.closed _ hmem, .inr hmem⟩
  exact (hpasses.preorder top ⟨hsound, htop, .inl rfl⟩ x hx).2.2

/-- What has the name of a request is one, or of a structure that is defined under that name. -/
theorem Arises.named_request (hr : Registry.compile schema = .ok reg) (h : Arises reg top) (hx : x ∈ top.preorder)
    (hname : x.name = Function.requestName) : x.shape = x.function.request ∨
      (x ≠ top ∧ x.shape ∈ reg.structures ∧ ∃ d ∈ schema.structures, d.name = Function.requestName) := by
  obtain ⟨hf, hshape, hsound⟩ := h.sound
  by_cases he : x = top
  · subst he
    rcases hshape with hs | hs
    · exact .inl hs
    · -- a response has another name
      have hresponse := ((Registry.compile_functions hr).1 _ hf).responseName
      rw [← hs] at hresponse
      have hne : Function.responseName ≠ Function.requestName := by decide
      exact absurd (hresponse.symm.trans hname) hne
  · rcases h.shape_within hr hx with htop | hmem
    · exact absurd htop he
    · obtain ⟨d, hd, hdname⟩ := (Registry.compile_shapes hr).1.named _ hmem
      exact .inr ⟨he, hmem, d, hd, hdname.trans hname⟩

end Record

/-! ## Calls -/

namespace Port

open Record (Arises)

variable {σ ρ : Type} {schema : Definition} {reg : Registry} {top x answer : Record} {p : Port σ ρ} {s s' : σ}

theorem call_refused (h : x.name ≠ Function.requestName) :
    p.call x s = (.error (.notARequest x.function.name x.name), s) := by
  rw [call, if_pos (by simpa using h)]

theorem call_run (h : x.name = Function.requestName) : p.call x s = p.run x s := by
  rw [call, if_neg (by simp [h])]

/-- What is let through fails with other errors, if it fails. -/
theorem run_error {e : ConnectorError} (h : (p.run x s).1 = .error e) : ¬ e.IsRefusal := by
  have hnative : ∀ cause, ¬ (ConnectorError.native cause).IsRefusal := by
    rintro cause ⟨function, actual, h⟩
    cases h
  rw [run] at h
  split at h
  · cases h
    exact hnative _
  split at h
  · rename_i hwrite
    cases h
    exact NativeStructure.write_error x hwrite
  split at h
  · cases h
    exact hnative _
  split at h
  · cases h
  · rename_i hread
    cases h
    exact Native.fill_error _ (congrArg Prod.snd hread)

/-- A call of the record answers that it is not a request. -/
def Refuses (p : Port σ ρ) (x : Record) (s : σ) : Prop := ∃ e, (p.call x s).1 = .error e ∧ e.IsRefusal

/-- The name of the record alone decides. -/
theorem refuses_iff : p.Refuses x s ↔ x.name ≠ Function.requestName := by
  constructor
  · rintro ⟨e, h, hrefusal⟩ hname
    rw [call_run hname] at h
    exact run_error h hrefusal
  · intro hname
    exact ⟨_, congrArg Prod.fst (call_refused hname), _, _, rfl⟩

theorem not_refuses_iff : ¬ p.Refuses x s ↔ x.name = Function.requestName := by rw [refuses_iff, not_not]

/-- What is run answers a new response, filled from what the connector's answer shows. -/
theorem run_answer (h : p.run x s = (.ok answer, s')) :
    ∃ n, Native.readRecord (.response x.function) n = (answer, none) := by
  rw [run] at h
  split at h
  · cases h
  split at h
  · cases h
  split at h
  · cases h
  split at h
  · rename_i native _ _ response hread
    cases h
    exact ⟨_, hread⟩
  · cases h

/-- What is answered arises, whatever record of the registry's functions was called. -/
theorem call_arises (hf : x.function ∈ reg.functions) (h : p.call x s = (.ok answer, s')) : Arises reg answer := by
  by_cases hname : x.name = Function.requestName
  · rw [call_run hname] at h
    obtain ⟨n, hn⟩ := run_answer h
    have hfilled : Arises reg (Native.readRecord (.response x.function) n).1 :=
      .filled _ n (.made _ (.response _ hf))
    rwa [hn] at hfilled
  · rw [call_refused hname] at h
    cases h

/-- A call that is refused asks nothing of the connector, and any other is run. A request is never refused. What is
not refused is the request of its function, or a nested record or row of a structure that is defined under the
name of requests; where there is no such structure, it is the request. -/
theorem calls_guarded (hr : Registry.compile schema = .ok reg) (h : Arises reg top) (hx : x ∈ top.preorder)
    (p : Port σ ρ) (s : σ) :
    (p.Refuses x s → p.call x s = (.error (.notARequest x.function.name x.name), s)) ∧
    (¬ p.Refuses x s → p.call x s = p.run x s) ∧
    (x.shape = x.function.request → ¬ p.Refuses x s) ∧
    (¬ p.Refuses x s → x.shape = x.function.request ∨
      (x ≠ top ∧ x.shape ∈ reg.structures ∧ ∃ d ∈ schema.structures, d.name = Function.requestName)) ∧
    ((∀ d ∈ schema.structures, d.name ≠ Function.requestName) → ¬ p.Refuses x s → x.shape = x.function.request) := by
  obtain ⟨hf, -, hsound⟩ := h.sound
  have hrequest : x.function.request.name = Function.requestName := by
    rw [(hsound.preorder hx).1]
    exact ((Registry.compile_functions hr).1 _ hf).requestName
  have hthrough : ¬ p.Refuses x s → x.shape = x.function.request ∨
      (x ≠ top ∧ x.shape ∈ reg.structures ∧ ∃ d ∈ schema.structures, d.name = Function.requestName) := by
    intro hcall
    exact h.named_request hr hx (not_refuses_iff.mp hcall)
  refine ⟨fun hcall => call_refused (refuses_iff.mp hcall), fun hcall => call_run (not_refuses_iff.mp hcall),
    fun hs => ?_, hthrough, fun hnone hcall => ?_⟩
  · rw [not_refuses_iff, Record.name, hs]
    exact hrequest
  · rcases hthrough hcall with hs | ⟨-, -, d, hd, hname⟩
    · exact hs
    · exact absurd hname (hnone d hd)

/-! ## A cover sheet -/

/-- A function whose request has a nested record of a structure with a given name. -/
def covering (name : String) : Definition where
  structures := [{ name := name, members := [.field { name := "PAGES", type := .int4 }] }]
  functions := [{ name := "FILE", imports := [.nested "COVER" "" name] }]

def covered : Registry := (Registry.compile (covering "SHEET")).toOption.get rfl

theorem covered_compiled : Registry.compile (covering "SHEET") = .ok covered := rfl

/-- The request of the first function, with its cover sheet. -/
def withCover (reg : Registry) : Record := (Record.request reg.functions.headI).editBelow [] (.makeNested "COVER")

/-- The cover sheet of that request. -/
def cover (reg : Registry) : Record := .blank reg.functions.headI reg.structures.headI

/-- Answers every call with what was called. -/
def echo : Connector := .new [("FILE", .ok)]

theorem covered_arises : Arises covered (withCover covered) :=
  .made _ (.edit _ _ _ (.request _ (List.mem_singleton.mpr rfl)))

theorem calls_guarded_cover :
    Connector.port.call (cover covered) echo = (.error (.notARequest "FILE" "SHEET"), echo) ∧
      Connector.port.call (withCover covered) echo = Connector.port.run (withCover covered) echo := by
  have htop : withCover covered ∈ (withCover covered).preorder := List.mem_cons_self
  have hcover : cover covered ∈ (withCover covered).preorder := List.mem_cons_of_mem _ List.mem_cons_self
  have hrefuses : Connector.port.Refuses (cover covered) echo := refuses_iff.mpr (by decide)
  obtain ⟨-, hrun, hrequest, -⟩ := calls_guarded covered_compiled covered_arises htop Connector.port echo
  exact ⟨(calls_guarded covered_compiled covered_arises hcover Connector.port echo).1 hrefuses, hrun (hrequest rfl)⟩

/-- The same, but the structure of the cover sheet has the name of a request. -/
def miscovered : Registry := (Registry.compile (covering Function.requestName)).toOption.get rfl

/-- The cover sheet is called in place of the request, and answered. -/
theorem cover_called : Registry.compile (covering Function.requestName) = .ok miscovered ∧
    Arises miscovered (withCover miscovered) ∧ cover miscovered ∈ (withCover miscovered).preorder ∧
    (cover miscovered).shape ≠ (cover miscovered).function.request ∧
    ¬ Connector.port.Refuses (cover miscovered) echo ∧ ∃ answer, echo.call (cover miscovered) = .ok answer :=
  ⟨rfl, .made _ (.edit _ _ _ (.request _ (List.mem_singleton.mpr rfl))), List.mem_cons_of_mem _ List.mem_cons_self,
    by decide, not_refuses_iff.mpr (by decide), Outcome.exists_ok (by decide +kernel)⟩

end Port

end DocWire
