/-
  DocWire.Proofs.Lookup — what is found under a name.

  Names are looked up in lists. Where they are distinct, what has a name is what is found under it, and a
  declared name is found at its own place.
-/

import DocWire.Schema.Field
import DocWire.Proofs.Name.Resolution
import Mathlib.Data.List.Nodup

namespace DocWire.Lookup

section

variable {α β : Type} [BEq β] [LawfulBEq β] {f : α → β} {as bs : List α} {a : α} {b : β}

theorem name_of_find? (h : as.find? (f · == b) = some a) : f a = b := by
  simpa using List.find?_some h

theorem find?_eq_none : as.find? (f · == b) = none ↔ b ∉ as.map f := by
  simp

theorem find?_name (hn : (as.map f).Nodup) (ha : a ∈ as) : as.find? (f · == f a) = some a := by
  cases h : as.find? (f · == f a) with
  | none => exact absurd (List.mem_map_of_mem ha) (find?_eq_none.mp h)
  | some b => rw [List.inj_on_of_nodup_map hn (List.mem_of_find?_eq_some h) ha (name_of_find? h)]

/-- Under distinct names the same is found in every order. -/
theorem find?_perm (hn : (as.map f).Nodup) (hp : as.Perm bs) (b : β) :
    as.find? (f · == b) = bs.find? (f · == b) := by
  cases hfound : as.find? (f · == b) with
  | none =>
    rw [eq_comm, find?_eq_none, ← (hp.map f).mem_iff]
    exact find?_eq_none.mp hfound
  | some a =>
    have ha : a ∈ bs := hp.mem_iff.mp (List.mem_of_find?_eq_some hfound)
    rw [← name_of_find? hfound, find?_name ((hp.map f).nodup_iff.mp hn) ha]

end

/-- The names behind a name are new to what was seen, and to that name where they do not repeat it. -/
theorem fresh_cons {α : Type} {f : α → String} {a : α} {rest : List α} {seen : List String} (hn : f a ∉ rest.map f)
    (hseen : ∀ b ∈ a :: rest, f b ∉ seen) : ∀ b ∈ rest, f b ∉ f a :: seen := by
  intro b hb
  rw [List.mem_cons, not_or]
  refine ⟨?_, hseen b (List.mem_cons_of_mem _ hb)⟩
  intro he
  exact hn (he ▸ List.mem_map_of_mem hb)

/-- What is left of a list begins with the item at its place. -/
theorem drop_cons {α : Type} {as rest : List α} {i : Nat} {a : α} (h : as.drop i = a :: rest) :
    as[i]? = some a ∧ as.drop (i + 1) = rest := by
  constructor
  · rw [← List.head?_drop, h]
    rfl
  · rw [← List.drop_drop, h]
    rfl

theorem lookup_eq_none {α : Type} {as : List (String × α)} {name : String} (h : name ∉ as.map Prod.fst) :
    as.lookup name = none := by
  rw [List.lookup_eq_none_iff]
  intro p hp
  simp only [bne_iff_ne]
  rintro rfl
  exact h (List.mem_map_of_mem hp)

/-- Of items that may have something under their names, an item is looked up by its name. -/
theorem lookup_filterMap {α β : Type} {f : α → String} {g : α → Option β} {as : List α} (hn : (as.map f).Nodup) {a : α}
    (ha : a ∈ as) : (as.filterMap fun a => (g a).map fun b => (f a, b)).lookup (f a) = g a := by
  induction as with
  | nil => cases ha
  | cons x rest ih =>
    rw [List.map_cons, List.nodup_cons] at hn
    by_cases he : f a = f x
    · have hax : a = x := by
        rcases List.mem_cons.mp ha with h | h
        · exact h
        · exact absurd (he ▸ List.mem_map_of_mem h) hn.1
      subst hax
      have hnone : (rest.filterMap fun a => (g a).map fun b => (f a, b)).lookup (f a) = none := by
        refine lookup_eq_none ?_
        intro hm
        obtain ⟨p, hp, hpa⟩ := List.mem_map.mp hm
        obtain ⟨y, hy, hpy⟩ := List.mem_filterMap.mp hp
        obtain ⟨b, -, rfl⟩ := Option.map_eq_some_iff.mp hpy
        exact hn.1 (hpa ▸ List.mem_map_of_mem hy)
      cases hg : g a with
      | none => simp [hg, hnone]
      | some b => simp [hg]
    · have hmem : a ∈ rest := by
        rcases List.mem_cons.mp ha with h | h
        · exact absurd (congrArg f h) he
        · exact h
      cases hg : g x with
      | none => simpa [List.filterMap_cons, hg] using ih hn.2 hmem
      | some b =>
        have hne : (f a == f x) = false := by simp [he]
        simpa [List.filterMap_cons, hg, List.lookup_cons, hne] using ih hn.2 hmem

/-- What stands behind other names is looked up there. -/
theorem lookup_behind {α : Type} {front as : List (String × α)} {name : String} (h : name ∉ front.map Prod.fst) :
    (front ++ as).lookup name = as.lookup name := by
  rw [List.lookup_append, lookup_eq_none h, Option.none_or]

/-- Of items that each have parts under their own names, an item's parts are looked up by its name. -/
theorem lookup_flatMap {α β : Type} {f : α → String} {g : α → List (String × β)} {as : List α}
    (hown : ∀ a ∈ as, ∀ k ∈ (g a).map Prod.fst, k = f a) (hn : (as.map f).Nodup) {a : α} (ha : a ∈ as) :
    (as.flatMap g).lookup (f a) = (g a).lookup (f a) := by
  induction as with
  | nil => cases ha
  | cons x rest ih =>
    rw [List.map_cons, List.nodup_cons] at hn
    rw [List.flatMap_cons, List.lookup_append]
    rcases List.mem_cons.mp ha with rfl | ha
    · have hnone : (rest.flatMap g).lookup (f a) = none := by
        refine lookup_eq_none fun hk => hn.1 ?_
        obtain ⟨p, hp, he⟩ := List.mem_map.mp hk
        obtain ⟨y, hy, hpy⟩ := List.mem_flatMap.mp hp
        have hname : p.1 = f y := hown y (List.mem_cons_of_mem _ hy) _ (List.mem_map_of_mem hpy)
        rw [← he, hname]
        exact List.mem_map_of_mem hy
      rw [hnone, Option.or_none]
    · have hnone : (g x).lookup (f a) = none := by
        refine lookup_eq_none fun hk => hn.1 ?_
        rw [← hown x List.mem_cons_self _ hk]
        exact List.mem_map_of_mem ha
      rw [hnone, Option.none_or, ih (fun b hb => hown b (List.mem_cons_of_mem _ hb)) hn.2 ha]

/-- A declared name is found at its own place. -/
theorem declaredIndex?_declared {own : Option String} {declared : List String} (hn : declared.Nodup) {i : Nat}
    {name : String} (h : declared[i]? = some name) : declaredIndex? own declared name = some i := by
  obtain ⟨hi, rfl⟩ := List.getElem?_eq_some_iff.mp h
  rw [declaredIndex?, Name.resolve_declared (List.getElem_mem hi), Option.bind_some,
    List.findIdx?_eq_some_iff_getElem]
  refine ⟨hi, by simp, fun j hj => ?_⟩
  simp only [beq_iff_eq]
  intro he
  have hji : j = i := hn.getElem_inj_iff.mp he
  omega

end DocWire.Lookup
