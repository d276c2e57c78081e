/-
  DocWire.Proofs.Name.Resolution — which declared name a requested one is resolved to.

  A name stands for a namespace and a local part (`Denotes`): `/NS/LOCAL` for its own two, where neither is empty nor
  holds a slash, and every other name, whatever slashes it holds, for the message's namespace and the whole of itself.
  Names that stand for the same are alike, and a requested name means exactly the declared ones that it is alike with
  (`means_iff`). The pass over the declared names keeps the first of them and goes on, since the requested name itself
  may still come (`resolveFrom_eq`).

  - `names_resolved`: the requested name where it is declared, else the first declared name that is alike, else none; what
    follows of a name of another namespace, of a declared name, and of the two forms of a name of the own namespace.
-/

import DocWire.Name
import Mathlib.Data.List.TakeWhile

namespace DocWire.Name

/-! ## What a name stands for -/

/-- What may stand on either side of the slash of a qualified name. -/
def IsPart (s : String) : Prop := s ≠ "" ∧ '/' ∉ s.toList

instance (s : String) : Decidable (IsPart s) := inferInstanceAs (Decidable (_ ∧ _))

/-- The namespace, if there is one, and the local part that a name stands for in a message of namespace `own`. -/
inductive Denotes (own : Option String) : String → Option String → String → Prop
  | qualified {ns l : String} (hns : IsPart ns) (hl : IsPart l) : Denotes own (qualify ns l) (some ns) l
  | unqualified {name : String} (h : ∀ ns l, IsPart ns → IsPart l → name ≠ qualify ns l) : Denotes own name own name

/-- Names that stand for the same in a message of namespace `own`. -/
def Alike (own : Option String) (a b : String) : Prop := ∃ ns l, Denotes own a ns l ∧ Denotes own b ns l

theorem splitQualified?_eq_some {name ns l : List Char} : splitQualified? name = some (ns, l) ↔
    name = '/' :: (ns ++ '/' :: l) ∧ (ns ≠ [] ∧ '/' ∉ ns) ∧ l ≠ [] ∧ '/' ∉ l := by
  constructor
  · intro h
    unfold splitQualified? at h
    split at h
    · rename_i rest
      split at h
      · rename_i l' hdrop
        have hrest : rest = rest.takeWhile (· != '/') ++ '/' :: l' := by
          rw [← hdrop, List.takeWhile_append_dropWhile]
        have hns : '/' ∉ rest.takeWhile (· != '/') := by
          intro hm
          have := List.mem_takeWhile_imp hm
          simp at this
        simp only [Option.ite_none_right_eq_some, Option.some.injEq, Prod.mk.injEq] at h
        obtain ⟨hfilled, rfl, rfl⟩ := h
        simp only [Bool.and_eq_true, Bool.not_eq_true', List.isEmpty_eq_false_iff, List.contains_eq_mem,
          decide_eq_false_iff_not] at hfilled
        exact ⟨congrArg _ hrest, ⟨hfilled.1.1, hns⟩, hfilled.1.2, hfilled.2⟩
      · cases h
    · cases h
  · rintro ⟨rfl, ⟨hns, hnsSlash⟩, hl, hlSlash⟩
    have hpass : ∀ c ∈ ns, (c != '/') = true := by
      intro c hc
      rw [bne_iff_ne]
      rintro rfl
      exact hnsSlash hc
    simp [splitQualified?, List.dropWhile_append_of_pos hpass, List.takeWhile_append_of_pos hpass, hns, hl, hlSlash]

theorem qualify_chars (ns l : String) : (qualify ns l).toList = '/' :: (ns.toList ++ '/' :: l.toList) := by
  have hslash : "/".toList = ['/'] := by decide
  simp [qualify, hslash]

theorem isPart_iff {s : String} : IsPart s ↔ s.toList ≠ [] ∧ '/' ∉ s.toList := by
  rw [IsPart, Ne, Ne, ← String.toList_inj]
  rfl

theorem split_qualify {ns l : String} (hns : IsPart ns) (hl : IsPart l) : split (qualify ns l) = (some ns, l) := by
  have hsplit : splitQualified? (qualify ns l).toList = some (ns.toList, l.toList) :=
    splitQualified?_eq_some.mpr ⟨qualify_chars ns l, isPart_iff.mp hns, isPart_iff.mp hl⟩
  simp only [split, hsplit, String.ofList_toList]

theorem split_unqualified {name : String} (h : ∀ ns l, IsPart ns → IsPart l → name ≠ qualify ns l) :
    split name = (none, name) := by
  have hsplit : splitQualified? name.toList = none := by
    rw [Option.eq_none_iff_forall_ne_some]
    rintro ⟨ns, l⟩ hsome
    obtain ⟨hchars, hns, hl⟩ := splitQualified?_eq_some.mp hsome
    refine h (String.ofList ns) (String.ofList l) (isPart_iff.mpr ?_) (isPart_iff.mpr ?_) ?_
    · rwa [String.toList_ofList]
    · rwa [String.toList_ofList]
    · rw [← String.toList_inj, qualify_chars, String.toList_ofList, String.toList_ofList, hchars]
  simp only [split, hsplit]

theorem qualified_or_not (name : String) :
    (∃ ns l, IsPart ns ∧ IsPart l ∧ name = qualify ns l) ∨ ∀ ns l, IsPart ns → IsPart l → name ≠ qualify ns l := by
  by_cases h : ∃ ns l, IsPart ns ∧ IsPart l ∧ name = qualify ns l
  · exact .inl h
  · refine .inr ?_
    intro ns l hns hl he
    exact h ⟨ns, l, hns, hl, he⟩

section

variable {own : Option String}

/-- Every name stands for one namespace, or none, and one local part. -/
theorem denotes_iff {name l : String} {ns : Option String} :
    Denotes own name ns l ↔ effective own name = ns ∧ localPart name = l := by
  constructor
  · intro h
    cases h with
    | qualified hns hl => simp [effective, namespace?, localPart, split_qualify hns hl]
    | unqualified h => simp [effective, namespace?, localPart, split_unqualified h]
  · rintro ⟨rfl, rfl⟩
    rcases qualified_or_not name with ⟨ns, l, hns, hl, rfl⟩ | h
    · simpa [effective, namespace?, localPart, split_qualify hns hl] using Denotes.qualified hns hl
    · simpa [effective, namespace?, localPart, split_unqualified h] using Denotes.unqualified h

theorem alike_iff {a b : String} :
    Alike own a b ↔ localPart a = localPart b ∧ effective own a = effective own b := by
  simp only [Alike, denotes_iff]
  constructor
  · rintro ⟨ns, l, ⟨hans, hal⟩, hbns, hbl⟩
    exact ⟨hal.trans hbl.symm, hans.trans hbns.symm⟩
  · rintro ⟨hl, hns⟩
    exact ⟨_, _, ⟨hns, hl⟩, rfl, rfl⟩

theorem Alike.refl (a : String) : Alike own a a := alike_iff.mpr ⟨rfl, rfl⟩

theorem Alike.symm {a b : String} (h : Alike own a b) : Alike own b a := by
  obtain ⟨ns, l, ha, hb⟩ := h
  exact ⟨ns, l, hb, ha⟩

theorem Alike.trans {a b c : String} (hab : Alike own a b) (hbc : Alike own b c) : Alike own a c := by
  rw [alike_iff] at hab hbc ⊢
  exact ⟨hab.1.trans hbc.1, hab.2.trans hbc.2⟩

theorem means_iff {declared requested : String} :
    means own declared requested = true ↔ Alike own declared requested := by
  rw [means, Bool.or_eq_true, Bool.and_eq_true, beq_iff_eq, beq_iff_eq, beq_iff_eq, ← alike_iff]
  refine or_iff_right_of_imp ?_
  rintro rfl
  exact Alike.refl _

/-- A name of another namespace is alike with no other name. -/
theorem eq_of_alike_foreign {ns l name : String} (hns : IsPart ns) (hl : IsPart l) (hforeign : some ns ≠ own)
    (h : Alike own (qualify ns l) name) : name = qualify ns l := by
  obtain ⟨ns', l', hdeclared, hname⟩ := h
  rw [denotes_iff] at hdeclared
  simp only [effective, namespace?, localPart, split_qualify hns hl, Option.some_or] at hdeclared
  obtain ⟨rfl, rfl⟩ := hdeclared
  cases hname with
  | qualified _ _ => rfl
  | unqualified _ => exact absurd rfl hforeign

/-- The two forms of a name of the own namespace. -/
theorem alike_qualify {ns l : String} (hns : IsPart ns) (hl : IsPart l) : Alike (some ns) l (qualify ns l) := by
  have hlocal : ∀ ns' l', IsPart ns' → IsPart l' → l ≠ qualify ns' l' := by
    rintro ns' l' - - rfl
    exact hl.2 (by simp [qualify_chars])
  exact ⟨some ns, l, .unqualified hlocal, .qualified hns hl⟩

/-! ## The pass over the declared names -/

theorem resolveFrom_eq {requested : String} {kept : Option String} {declared : List String} :
    resolveFrom own requested kept declared =
      if requested ∈ declared then some requested else kept.or (declared.find? (means own · requested)) := by
  induction declared generalizing kept with
  | nil => simp [resolveFrom]
  | cons name rest ih =>
    rw [resolveFrom]
    by_cases hname : name = requested
    · simp [hname]
    · have hmem : requested ∈ name :: rest ↔ requested ∈ rest := by
        rw [List.mem_cons, or_iff_right (Ne.symm hname)]
      simp only [if_neg hname, ih, hmem, List.find?_cons]
      cases kept <;> cases means own name requested <;> simp

theorem resolve_eq {declared : List String} {requested : String} : resolve own declared requested =
    if requested ∈ declared then some requested else declared.find? (means own · requested) := by
  rw [resolve, resolveFrom_eq, Option.none_or]

theorem resolve_declared {declared : List String} {name : String} (h : name ∈ declared) :
    resolve own declared name = some name := by
  rw [resolve_eq, if_pos h]

theorem resolve_eq_none {declared : List String} {requested : String} :
    resolve own declared requested = none ↔ ∀ name ∈ declared, ¬ Alike own name requested := by
  rw [resolve_eq]
  by_cases h : requested ∈ declared
  · rw [if_pos h]
    exact iff_of_false (by simp) (fun hnone => hnone _ h (Alike.refl _))
  · rw [if_neg h, List.find?_eq_none]
    simp only [means_iff]

theorem resolve_eq_some {declared : List String} {requested name : String} :
    resolve own declared requested = some name ↔
      (name = requested ∧ requested ∈ declared) ∨
      (requested ∉ declared ∧ ∃ before after, declared = before ++ name :: after ∧ Alike own name requested ∧
        ∀ other ∈ before, ¬ Alike own other requested) := by
  rw [resolve_eq]
  by_cases h : requested ∈ declared
  · simp [h, eq_comm]
  · rw [if_neg h, List.find?_eq_some_iff_append]
    simp only [means_iff, h, and_false, false_or, not_false_iff, true_and, Bool.not_eq_true', ← Bool.not_eq_true]
    constructor
    · rintro ⟨halike, before, after, hdeclared, hbefore⟩
      exact ⟨before, after, hdeclared, halike, hbefore⟩
    · rintro ⟨before, after, hdeclared, halike, hbefore⟩
      exact ⟨halike, before, after, hdeclared, hbefore⟩

theorem resolve_only {declared : List String} {requested name : String} (hname : name ∈ declared)
    (halike : Alike own name requested) (honly : ∀ other ∈ declared, Alike own other requested → other = name) :
    resolve own declared requested = some name := by
  cases hresolve : resolve own declared requested with
  | none => exact absurd halike (resolve_eq_none.mp hresolve name hname)
  | some found =>
    rcases resolve_eq_some.mp hresolve with ⟨rfl, hfound⟩ | ⟨-, before, after, rfl, hfound, -⟩
    · rw [honly found hfound (Alike.refl _)]
    · rw [honly found (by simp) hfound]

/-- What a requested name is resolved to, in a message of any namespace or none. To mean is to stand for the same, and
so an equivalence of all names. -/
theorem names_resolved (own : Option String) :
    (Equivalence fun a b => means own a b = true) ∧
    (∀ a b, means own a b = true ↔ Alike own a b) ∧
    (∀ declared requested, resolve own declared requested = none ↔ ∀ name ∈ declared, ¬ Alike own name requested) ∧
    (∀ declared requested name, resolve own declared requested = some name ↔
      (name = requested ∧ requested ∈ declared) ∨
      (requested ∉ declared ∧ ∃ before after, declared = before ++ name :: after ∧ Alike own name requested ∧
        ∀ other ∈ before, ¬ Alike own other requested)) ∧
    (∀ declared requested ns l, IsPart ns → IsPart l → some ns ≠ own →
      resolve own declared requested = some (qualify ns l) → requested = qualify ns l) ∧
    (∀ declared, ∀ name ∈ declared, resolve own declared name = some name) ∧
    (∀ declared name ns l, IsPart ns → IsPart l → some ns = own → name ∈ declared → Alike own name l →
      (∀ other ∈ declared, Alike own other l → other = name) →
      resolve own declared l = some name ∧ resolve own declared (qualify ns l) = some name) := by
  refine ⟨?_, ?_, ?_, ?_, ?_, ?_, ?_⟩
  · simp only [means_iff]
    exact ⟨Alike.refl, Alike.symm, Alike.trans⟩
  · intro a b
    exact means_iff
  · intro declared requested
    exact resolve_eq_none
  · intro declared requested name
    exact resolve_eq_some
  · intro declared requested ns l hns hl hforeign hresolve
    rcases resolve_eq_some.mp hresolve with ⟨rfl, -⟩ | ⟨-, before, after, -, halike, -⟩
    · rfl
    · exact eq_of_alike_foreign hns hl hforeign halike
  · intro declared name hname
    exact resolve_declared hname
  · intro declared name ns l hns hl hown hname halike honly
    subst hown
    have hforms := alike_qualify hns hl
    constructor
    · exact resolve_only hname halike honly
    · refine resolve_only hname (halike.trans hforms) ?_
      intro other hother h
      exact honly other hother (h.trans hforms.symm)

/-- `/BIZ/HEAD` is reached in both forms, `/OTH/HEAD` in its own alone, and a name that is written as it is declared
before an earlier one that it means. A third slash makes a name of no namespace of its own. -/
theorem names_resolved_own :
    resolve (some "BIZ") ["/OTH/HEAD", "/BIZ/HEAD"] "HEAD" = some "/BIZ/HEAD" ∧
    resolve (some "BIZ") ["/OTH/HEAD", "/BIZ/HEAD"] "/BIZ/HEAD" = some "/BIZ/HEAD" ∧
    resolve (some "BIZ") ["/OTH/HEAD"] "HEAD" = none ∧
    resolve (some "BIZ") ["/BIZ/HEAD", "HEAD"] "HEAD" = some "HEAD" ∧
    ¬ Alike (some "BIZ") "/BIZ/HEAD/" "HEAD/" := by
  obtain ⟨-, hmeans, -, -, -, hdeclared, honly⟩ := names_resolved (some "BIZ")
  have hboth := honly ["/OTH/HEAD", "/BIZ/HEAD"] "/BIZ/HEAD" "BIZ" "HEAD" (by decide) (by decide) rfl (by decide)
    ((hmeans _ _).mp (by decide)) ?_
  · refine ⟨hboth.1, hboth.2, by decide, hdeclared _ _ (by decide), ?_⟩
    rw [← hmeans]
    decide
  · simp only [← hmeans]
    decide

end

end DocWire.Name
