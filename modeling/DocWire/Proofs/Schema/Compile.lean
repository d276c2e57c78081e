/-
  DocWire.Proofs.Schema.Compile — the compilation of a message type accepts the well-formed definitions.

  Segment types are compiled depth first, each when it is first reached. What is done is closed
  (`Closed`): every type that is done was reached at the level that stands beside it, and its children
  are done one level below. So once the children of the root are done, every reached type is done at the
  length of every chain that leads to it, and the definition is well-formed.

  Conversely nothing is refused in a well-formed definition: the chain of types that are being compiled
  refers to the next one, so the next one is not on it. That references are followed to an end is said by
  `compilesSegments_iff`: the equation by which they are followed has one solution.
-/

import DocWire.Proofs.Lookup
import DocWire.Proofs.Outcome
import DocWire.Proofs.Pairing
import DocWire.Proofs.Schema.References
import Mathlib.Data.List.Nodup

namespace DocWire.Compile

open MessageDef (Reaches)

/-! ## Following references -/

/-- A function that compiles references by the steps of the compiler, each reference below by itself, however deep they
go. -/
def CompilesSegments (key : TypeKey) (defs : List SegmentDef)
    (compile : List String → String → Nat → String → Leveled → Except RegistryError (SegmentType × Leveled)) : Prop :=
  ∀ chain parent level name done, compile chain parent level name done =
    segmentStep key defs chain parent level name done fun d _ _ =>
      compileChildren (compile (chain ++ [name]) name (level + 1)) name (level + 1) [] d.children done

section

variable {key : TypeKey} {defs : List SegmentDef}

/-- References are followed to an end: nothing else than the compiler follows them by its steps. -/
theorem compilesSegments_iff
    {compile : List String → String → Nat → String → Leveled → Except RegistryError (SegmentType × Leveled)} :
    CompilesSegments key defs compile ↔ compile = compileSegment key defs := by
  rw [compileSegment, ← follow_unique]
  simp only [CompilesSegments, funext_iff]

theorem compileSegment_eq (chain : List String) (parent : String) (level : Nat) (name : String) (done : Leveled) :
    compileSegment key defs chain parent level name done =
      segmentStep key defs chain parent level name done fun d _ _ =>
        compileChildren (compileSegment key defs (chain ++ [name]) name (level + 1)) name (level + 1) [] d.children done :=
  compilesSegments_iff.mpr rfl chain parent level name done

end

/-! ## What is done -/

/-- The slots that child definitions come to, all types that they refer to being done at `level`. -/
def Slots (level : Nat) (done : Leveled) (children : List ChildDef) (slots : List ChildSlot) : Prop :=
  List.Forall₂ (fun c slot => ∃ t, (level, t) ∈ done ∧ t.name = c.segmentType ∧ slot = childSlot level c t)
    children slots

/-- A segment type that is done at `level` is what its definition says. -/
structure MadeFrom (key : TypeKey) (done : Leveled) (level : Nat) (s : SegmentDef) (t : SegmentType) : Prop where
  name : t.name = s.segmentType
  key : t.key = key.segmentKey t.name
  description : t.description = s.description
  fields : compileFields s.segmentType s.fields = .ok t.fields
  distinct : (s.children.map (·.segmentType)).Nodup
  slots : Slots (level + 1) done s.children t.children

structure Closed (d : MessageDef) (done : Leveled) : Prop where
  distinct : (done.map (·.2.name)).Nodup
  reached : ∀ p ∈ done, d.Reaches p.1 p.2.name
  made : ∀ p ∈ done, ∃ s ∈ d.segments, MadeFrom d.key done p.1 s p.2

/-- What is done stays done, and no type of the chain is added. -/
structure Grows (chain : List String) (done done' : Leveled) : Prop where
  kept : ∀ p ∈ done, p ∈ done'
  fresh : ∀ p ∈ done', p ∈ done ∨ p.2.name ∉ chain

theorem Grows.refl (chain : List String) (done : Leveled) : Grows chain done done :=
  ⟨fun _ h => h, fun _ h => .inl h⟩

theorem Grows.trans {chain : List String} {a b c : Leveled} (h : Grows chain a b) (h' : Grows chain b c) :
    Grows chain a c := by
  refine ⟨fun p hp => h'.kept p (h.kept p hp), fun p hp => ?_⟩
  rcases h'.fresh p hp with hb | hn
  · exact h.fresh p hb
  · exact .inr hn

theorem Slots.mono {level : Nat} {done done' : Leveled} {children : List ChildDef} {slots : List ChildSlot}
    (h : Slots level done children slots) (hk : ∀ p ∈ done, p ∈ done') : Slots level done' children slots :=
  h.imp fun _ _ ⟨t, ht, hn, hs⟩ => ⟨t, hk _ ht, hn, hs⟩

theorem MadeFrom.mono {key : TypeKey} {done done' : Leveled} {level : Nat} {s : SegmentDef} {t : SegmentType}
    (h : MadeFrom key done level s t) (hk : ∀ p ∈ done, p ∈ done') : MadeFrom key done' level s t :=
  { h with slots := h.slots.mono hk }

theorem closed_nil (d : MessageDef) : Closed d [] :=
  ⟨List.nodup_nil, fun _ h => (List.not_mem_nil h).elim, fun _ h => (List.not_mem_nil h).elim⟩

/-- What `Closed` says of a name that is done. -/
theorem Closed.unique {d : MessageDef} {done : Leveled} (h : Closed d done) {p q : Nat × SegmentType}
    (hp : p ∈ done) (hq : q ∈ done) (hn : p.2.name = q.2.name) : p = q :=
  List.inj_on_of_nodup_map h.distinct hp hq hn

/-- A type whose children are done may be added. -/
theorem Closed.push {d : MessageDef} {done : Leveled} (h : Closed d done) {level : Nat} {s : SegmentDef}
    {t : SegmentType} (hs : s ∈ d.segments) (ht : MadeFrom d.key done level s t)
    (hr : d.Reaches level t.name) (hn : t.name ∉ done.map (·.2.name)) : Closed d (done ++ [(level, t)]) := by
  have kept : ∀ p ∈ done, p ∈ done ++ [(level, t)] := fun p hp => List.mem_append_left _ hp
  refine ⟨?_, fun p hp => ?_, fun p hp => ?_⟩
  · rw [List.map_append, List.nodup_append]
    refine ⟨h.distinct, by simp, fun a ha b hb => ?_⟩
    simp only [List.map_cons, List.map_nil, List.mem_singleton] at hb
    subst hb
    exact fun e => hn (e ▸ ha)
  · rcases List.mem_append.mp hp with hp | hp
    · exact h.reached p hp
    · rw [List.mem_singleton.mp hp]
      exact hr
  · rcases List.mem_append.mp hp with hp | hp
    · obtain ⟨s, hs, hm⟩ := h.made p hp
      exact ⟨s, hs, hm.mono kept⟩
    · rw [List.mem_singleton.mp hp]
      exact ⟨s, hs, ht.mono kept⟩

/-! ## What a success says -/

/-- What compiling a reference at `level` gives, when it gives something. -/
def Delivers (d : MessageDef) (chain : List String) (level : Nat)
    (compile : String → Leveled → Except RegistryError (SegmentType × Leveled)) : Prop :=
  ∀ name done t done', Closed d done → d.Reaches level name → compile name done = .ok (t, done') →
    Closed d done' ∧ Grows chain done done' ∧ (level, t) ∈ done' ∧ t.name = name

theorem compileChildren_delivers {d : MessageDef} {chain : List String} {level : Nat}
    {compile : String → Leveled → Except RegistryError (SegmentType × Leveled)}
    (hc : Delivers d chain level compile) (parent : String) :
    ∀ (children : List ChildDef) (seen : List String) (done : Leveled) (slots : List ChildSlot)
      (done' : Leveled), Closed d done → (∀ c ∈ children, d.Reaches level c.segmentType) →
      compileChildren compile parent level seen children done = .ok (slots, done') →
      Closed d done' ∧ Grows chain done done' ∧ Slots level done' children slots ∧
        (children.map (·.segmentType)).Nodup ∧ ∀ c ∈ children, c.segmentType ∉ seen := by
  intro children
  induction children with
  | nil =>
    intro seen done slots done' hd _ h
    cases h
    exact ⟨hd, .refl _ _, .nil, List.nodup_nil, fun _ h => (List.not_mem_nil h).elim⟩
  | cons c rest ih =>
    intro seen done slots done' hd hr h
    simp only [compileChildren, List.contains_iff_mem] at h
    split at h
    · cases h
    rename_i hseen
    split at h
    · cases h
    rename_i t mid ht
    obtain ⟨⟨slots', done''⟩, hrest, heq⟩ := Outcome.map_eq_ok.mp h
    cases heq
    obtain ⟨hm, hgm, htm, hn⟩ := hc _ _ _ _ hd (hr c List.mem_cons_self) ht
    obtain ⟨hd', hg', hs', hnd, hfresh⟩ :=
      ih _ _ _ _ hm (fun c h => hr c (List.mem_cons_of_mem _ h)) hrest
    refine ⟨hd', hgm.trans hg', .cons ⟨t, hg'.kept _ htm, hn, rfl⟩ hs', ?_, ?_⟩
    · rw [List.map_cons, List.nodup_cons]
      refine ⟨fun hx => ?_, hnd⟩
      obtain ⟨c', hc', he⟩ := List.mem_map.mp hx
      exact hfresh c' hc' (he ▸ List.mem_cons_self)
    · intro c' hc'
      rcases List.mem_cons.mp hc' with rfl | hc'
      · exact hseen
      · exact fun hx => hfresh c' hc' (List.mem_cons_of_mem _ hx)

/-- The two ways in which a reference is compiled: the type is done at this very level, or it is compiled
now, its children first. -/
theorem compileSegment_eq_ok {key : TypeKey} {defs : List SegmentDef} {chain : List String} {parent : String}
    {level : Nat} {name : String} {done done' : Leveled} {t : SegmentType}
    (h : compileSegment key defs chain parent level name done = .ok (t, done')) :
    name ∉ chain ∧
      (((level, t) ∈ done ∧ t.name = name ∧ done' = done) ∨
        (name ∉ done.map (·.2.name) ∧ ∃ s ∈ defs, s.segmentType = name ∧
          ∃ fields slots mid, compileFields name s.fields = .ok fields ∧
            compileChildren (compileSegment key defs (chain ++ [name]) name (level + 1)) name (level + 1) [] s.children
              done = .ok (slots, mid) ∧
            t = ⟨key.segmentKey name, name, s.description, fields, slots⟩ ∧ done' = mid ++ [(level, t)])) := by
  rw [compileSegment_eq, segmentStep] at h
  split at h
  · cases h
  rename_i hchain
  refine ⟨by simpa using hchain, ?_⟩
  split at h
  · rename_i first t' hf
    split at h
    · rename_i he
      simp only [Except.ok.injEq, Prod.mk.injEq] at h
      obtain ⟨rfl, rfl⟩ := h
      subst he
      exact .inl ⟨List.mem_of_find?_eq_some hf, Lookup.name_of_find? (f := fun p : Nat × SegmentType => p.2.name) hf, rfl⟩
    · cases h
  rename_i hnone
  have hnew : name ∉ done.map (·.2.name) := Lookup.find?_eq_none.mp hnone
  split at h
  · cases h
  rename_i s hs
  have hsn : s.segmentType = name := Lookup.name_of_find? hs
  split at h
  · cases h
  · cases h
  rename_i fields slots mid hfields hslots
  simp only [Except.ok.injEq, Prod.mk.injEq] at h
  obtain ⟨rfl, rfl⟩ := h
  exact .inr ⟨hnew, s, List.mem_of_find?_eq_some hs, hsn, fields, slots, mid, hfields, hslots, rfl, rfl⟩

/-- The induction is along the chain: the children of a type are compiled with its name on it. -/
theorem compileSegment_delivers (d : MessageDef) : ∀ (chain : List String) (parent : String) (level : Nat),
    Delivers d chain level (compileSegment d.key d.segments chain parent level) := by
  refine chain_induction d.listed fun chain ih => ?_
  intro parent level name done t done' hd hr h
  obtain ⟨hchain, ⟨hm, hn, rfl⟩ | ⟨hnone, s, hs, rfl, fields, slots, mid, hfields, hslots, rfl, rfl⟩⟩ :=
    compileSegment_eq_ok h
  · exact ⟨hd, .refl _ _, hm, hn⟩
  obtain ⟨hmid, hg, hsl, hnd, -⟩ := compileChildren_delivers (ih _ (List.mem_map_of_mem hs) hchain _ _) s.segmentType
    s.children [] done slots mid hd (fun c hc => Reaches.child hr hs hc) hslots
  have hnew : s.segmentType ∉ mid.map (·.2.name) := fun hx => by
    obtain ⟨p, hp, he⟩ := List.mem_map.mp hx
    rcases hg.fresh p hp with hp | hp
    · exact hnone (List.mem_map.mpr ⟨p, hp, he⟩)
    · exact hp (by rw [he]; exact List.mem_append_right _ (List.mem_singleton.mpr rfl))
  refine ⟨hmid.push hs ⟨rfl, rfl, rfl, hfields, hnd, hsl⟩ hr hnew, ?_,
    List.mem_append_right _ (List.mem_singleton.mpr rfl), rfl⟩
  refine ⟨fun p hp => List.mem_append_left _ (hg.kept p hp), fun p hp => ?_⟩
  rcases List.mem_append.mp hp with hp | hp
  · rcases hg.fresh p hp with hp | hp
    · exact .inl hp
    · exact .inr fun hx => hp (List.mem_append_left _ hx)
  · rw [List.mem_singleton.mp hp]
    exact .inr hchain

/-! ## Every reached type is done -/

theorem Closed.done_of_reaches {d : MessageDef} {done : Leveled} (h : Closed d done)
    (hlisted : d.listed.Nodup) {slots : List ChildSlot} (hroot : Slots 1 done d.root slots) {n : Nat}
    {name : String} (hr : d.Reaches n name) : ∃ t, (n, t) ∈ done ∧ t.name = name := by
  induction hr with
  | top hc =>
    obtain ⟨slot, -, t, ht, hn, -⟩ := Pairing.left hroot hc
    exact ⟨t, ht, hn⟩
  | child _ hs hc ih =>
    obtain ⟨t, ht, hn⟩ := ih
    obtain ⟨s', hs', hm⟩ := h.made _ ht
    obtain rfl := List.inj_on_of_nodup_map hlisted hs hs' (hn.symm.trans hm.name)
    obtain ⟨slot, -, u, hu, hun, -⟩ := Pairing.left hm.slots hc
    exact ⟨u, hu, hun⟩

/-! ## Nothing is refused in a well-formed definition -/

theorem compileChildren_accepts {d : MessageDef} {chain : List String} {level : Nat}
    {compile : String → Leveled → Except RegistryError (SegmentType × Leveled)}
    (hc : Delivers d chain level compile) (parent : String) :
    ∀ (children : List ChildDef) (seen : List String) (done : Leveled), Closed d done →
      (∀ c ∈ children, d.Reaches level c.segmentType) →
      (∀ c ∈ children, ∀ done, Closed d done → ∃ r, compile c.segmentType done = .ok r) →
      (children.map (·.segmentType)).Nodup → (∀ c ∈ children, c.segmentType ∉ seen) →
      ∃ r, compileChildren compile parent level seen children done = .ok r := by
  intro children
  induction children with
  | nil => intro seen done _ _ _ _ _; exact ⟨_, rfl⟩
  | cons c rest ih =>
    intro seen done hd hr ha hnd hseen
    obtain ⟨⟨t, mid⟩, ht⟩ := ha c List.mem_cons_self done hd
    obtain ⟨hmid, -, -, -⟩ := hc _ _ _ _ hd (hr c List.mem_cons_self) ht
    rw [List.map_cons, List.nodup_cons] at hnd
    obtain ⟨⟨slots, done'⟩, hrest⟩ := ih (c.segmentType :: seen) mid hmid
      (fun c' h => hr c' (List.mem_cons_of_mem _ h)) (fun c' h => ha c' (List.mem_cons_of_mem _ h)) hnd.2
      (Lookup.fresh_cons hnd.1 hseen)
    have hns : ¬ c.segmentType ∈ seen := hseen c List.mem_cons_self
    simp only [compileChildren, List.contains_iff_mem, hns, if_false, ht, hrest, Outcome.map_ok]
    exact ⟨_, rfl⟩

/-- The chain consists of the root and of types that refer, step by step, to the one to be compiled. -/
def ChainTo (d : MessageDef) (name : String) (chain : List String) : Prop :=
  ∀ a ∈ chain, a = rootType ∨ (a ∈ d.listed ∧ Relation.TransGen d.Refers a name)

section ChainTo

variable {d : MessageDef} {name : String} {chain : List String}

theorem ChainTo.not_mem (hc : ChainTo d name chain) (hd : d.WellFormed) {level : Nat} (hr : d.Reaches level name) :
    name ∉ chain := fun hx => by
  rcases hc name hx with rfl | ⟨-, ht⟩
  · exact hd.rootUnreached _ hr
  · exact hd.acyclic _ _ hr ht

theorem ChainTo.push (hc : ChainTo d name chain) (hl : name ∈ d.listed) {child : String} (hr : d.Refers name child) :
    ChainTo d child (chain ++ [name]) := by
  intro a ha
  rcases List.mem_append.mp ha with ha | ha
  · exact (hc a ha).imp_right fun ⟨hl, ht⟩ => ⟨hl, ht.tail hr⟩
  · rw [List.mem_singleton.mp ha]
    exact .inr ⟨hl, .single hr⟩

end ChainTo

theorem compileSegment_accepts {d : MessageDef} (hd : d.WellFormed) :
    ∀ (chain : List String) (parent : String) (level : Nat) (name : String) (done : Leveled),
      ChainTo d name chain → d.Reaches level name → Closed d done →
      ∃ r, compileSegment d.key d.segments chain parent level name done = .ok r := by
  refine chain_induction d.listed fun chain ih => ?_
  intro parent level name done hc hr hdone
  have hnew := hc.not_mem hd hr
  have hlisted := hd.defined _ _ hr
  rw [compileSegment_eq, segmentStep]
  split
  · rename_i hmem
    exact absurd (by simpa using hmem) hnew
  cases hf : done.find? (·.2.name == name) with
  | some p =>
    have hp : p.2.name = name := Lookup.name_of_find? (f := fun p : Nat × SegmentType => p.2.name) hf
    have hl : p.1 = level :=
      hd.oneLevel _ _ _ (hp ▸ hdone.reached p (List.mem_of_find?_eq_some hf)) hr
    simp only [hl, if_true]
    exact ⟨_, rfl⟩
  | none =>
    simp only
    split
    · rename_i hmissing
      exact absurd hlisted (Lookup.find?_eq_none.mp hmissing)
    · rename_i s' hfs
      have hsm := List.mem_of_find?_eq_some hfs
      obtain rfl : s'.segmentType = name := Lookup.name_of_find? hfs
      have hfields : compileFields s'.segmentType s'.fields = .ok _ :=
        compileFields_ok_iff.mpr ⟨hd.fields _ _ hsm hr, rfl⟩
      have hbelow : ∀ c ∈ s'.children, d.Reaches (level + 1) c.segmentType :=
        fun c h => Reaches.child hr hsm h
      obtain ⟨⟨slots, mid⟩, hslots⟩ := compileChildren_accepts
        (compileSegment_delivers d (chain ++ [s'.segmentType]) s'.segmentType (level + 1))
        s'.segmentType s'.children [] done hdone hbelow
        (fun c h done hdone => ih _ hlisted hnew _ _ _ _ (hc.push hlisted ⟨s', hsm, rfl, c, h, rfl⟩) (hbelow c h) hdone)
        (hd.children _ _ hsm hr) (fun _ _ => List.not_mem_nil)
      simp only [hfields, hslots]
      exact ⟨_, rfl⟩

end DocWire.Compile
