/-
  DocWire.Proofs.Schema.Registry — what a compiled registry holds, and what its look-ups find.
-/

import DocWire.Proofs.Schema.MessageType
import DocWire.Proofs.Schema.Shape
import DocWire.Schema.Registry

namespace DocWire

namespace Compile

/-- Every definition is compiled by itself, and keys are distinct. -/
theorem compileMessageTypes_ok : ∀ (ds : List MessageDef) {seen : List TypeKey} {ms : List MessageType},
    compileMessageTypes seen ds = .ok ms →
    List.Forall₂ (fun d m => compileMessageType d = .ok m) ds ms ∧
      (ms.map (·.key)).Nodup ∧ ∀ m ∈ ms, m.key ∉ seen
  | [], seen, ms, h => by
    cases h
    exact ⟨.nil, List.nodup_nil, fun m hm => by cases hm⟩
  | d :: rest, seen, ms, h => by
    unfold compileMessageTypes at h
    split at h
    · cases h
    rename_i hseen
    split at h
    · cases h
    rename_i m hm
    obtain ⟨ms', hms, rfl⟩ := Outcome.map_eq_ok.mp h
    obtain ⟨hall, hnd, hfresh⟩ := compileMessageTypes_ok rest hms
    have hkey : m.key = d.key := (compileMessageType_ok hm).choose_spec.key
    refine ⟨.cons hm hall, List.nodup_cons.mpr ⟨fun hx => ?_, hnd⟩, fun m' hm' => ?_⟩
    · obtain ⟨m', hm', he⟩ := List.mem_map.mp hx
      exact hfresh m' hm' (List.mem_cons.mpr (.inl (he.trans hkey)))
    · rcases List.mem_cons.mp hm' with rfl | hm'
      · rw [hkey]
        simpa using hseen
      · exact fun hx => hfresh m' hm' (List.mem_cons_of_mem _ hx)

end Compile

namespace Registry

variable {r : Registry}

/-- A registry is compiled part by part. -/
theorem compile_eq_ok {d : Definition} (h : compile d = .ok r) :
    Compile.compileStructures d.structures d.structures [] = .ok r.structures ∧
      Compile.compileFunctions d.structures r.structures [] d.functions = .ok r.functions ∧
      Compile.compileMessageTypes [] d.messageTypes = .ok r.messageTypes := by
  unfold compile at h
  split at h
  · cases h
  split at h
  · cases h
  rename_i shapes hshapes
  split at h
  · cases h
  rename_i functions hfunctions
  obtain ⟨ms, hms, rfl⟩ := Outcome.map_eq_ok.mp h
  exact ⟨hshapes, hfunctions, hms⟩

theorem resolved {d : Definition} (h : compile d = .ok r) {m : MessageType} (hm : m ∈ r.messageTypes) :
    m.Resolved := by
  obtain ⟨-, -, hms⟩ := compile_eq_ok h
  obtain ⟨def', -, hok⟩ := Pairing.right (Compile.compileMessageTypes_ok _ hms).1 hm
  exact Compile.resolved_of_compileMessageType hok

theorem keys_nodup {d : Definition} (h : compile d = .ok r) : (r.messageTypes.map (·.key)).Nodup := by
  obtain ⟨-, -, hms⟩ := compile_eq_ok h
  exact (Compile.compileMessageTypes_ok _ hms).2.1

theorem messageType_mem {key : TypeKey} {m : MessageType} (h : r.messageType key = .ok m) :
    m ∈ r.messageTypes := by
  unfold messageType at h
  split at h
  · rename_i hf
    cases h
    exact List.mem_of_find?_eq_some hf
  · cases h

theorem messageTypeById_mem {id : String} {m : MessageType} (h : r.messageTypeById id = .ok m) :
    m ∈ r.messageTypes := by
  unfold messageTypeById at h
  split at h
  · exact messageType_mem h
  · cases h

theorem function_mem {name : String} {f : Function} (h : r.function name = .ok f) : f ∈ r.functions := by
  unfold Registry.function at h
  split at h
  · rename_i hf
    cases h
    exact List.mem_of_find?_eq_some hf
  · cases h

theorem function_named {name : String} {f : Function} (h : r.function name = .ok f) : f.name = name := by
  unfold Registry.function at h
  split at h
  · rename_i hf
    cases h
    exact Lookup.name_of_find? hf
  · cases h

theorem function_eq_error {name : String} {e : RegistryError} (h : r.function name = .error e) :
    e = .unknownFunction name := by
  unfold Registry.function at h
  split at h
  · cases h
  · cases h
    rfl

/-- Every message type is found under its key. -/
theorem messageType_key {d : Definition} (h : compile d = .ok r) {m : MessageType} (hm : m ∈ r.messageTypes) :
    r.messageType m.key = .ok m := by
  simp only [messageType, Lookup.find?_name (f := MessageType.key) (keys_nodup h) hm]

/-- What a registry has of the structures and functions of its definition. -/
theorem compile_called {d : Definition} (h : compile d = .ok r) : Compile.Done d.structures r.structures ∧
    List.Forall₂ (Compile.Called r.structures) d.functions r.functions ∧ (d.functions.map (·.name)).Nodup := by
  obtain ⟨hshapes, hfunctions, -⟩ := compile_eq_ok h
  obtain ⟨hdone, -, hall⟩ := Compile.compileStructures_resolved Compile.done_accumulates _ Compile.done_nil hshapes
  obtain ⟨hcalled, hnd, -⟩ := Compile.compileFunctions_ok hall _ hfunctions
  exact ⟨hdone, hcalled, hnd⟩

/-- The structures of a registry are those of its definition, and they and the parameters of functions refer to
structures of the registry. -/
theorem compile_shapes {d : Definition} (h : compile d = .ok r) : Compile.Done d.structures r.structures ∧
    ∀ f ∈ r.functions, Compile.RefersTo r.structures f.request.members ∧
      Compile.RefersTo r.structures f.response.members := by
  obtain ⟨hdone, hcalled, -⟩ := compile_called h
  refine ⟨hdone, ?_⟩
  intro f hf
  obtain ⟨g, -, hg⟩ := Pairing.right hcalled hf
  exact ⟨hg.request.made.refersTo, hg.response.made.refersTo⟩

theorem compile_functions {d : Definition} (h : compile d = .ok r) :
    (∀ f ∈ r.functions, f.Resolved) ∧ (r.functions.map (·.name)).Nodup := by
  obtain ⟨hdone, hcalled, hnd⟩ := compile_called h
  constructor
  · intro f hf
    obtain ⟨g, -, hg⟩ := Pairing.right hcalled hf
    exact hg.resolved hdone
  · rw [← Pairing.names hcalled fun _ _ hg => hg.name.symm]
    exact hnd

/-- Every function is found under its name. -/
theorem function_name {d : Definition} (h : compile d = .ok r) {f : Function} (hf : f ∈ r.functions) :
    r.function f.name = .ok f := by
  simp only [function, Lookup.find?_name (f := Function.name) (compile_functions h).2 hf]

end Registry

end DocWire
