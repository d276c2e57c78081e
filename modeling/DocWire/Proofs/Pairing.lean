/-
  DocWire.Proofs.Pairing — lists that correspond item by item.
-/

import Mathlib.Data.List.Forall2

namespace DocWire.Pairing

variable {α β : Type} {R : α → β → Prop} {as : List α} {bs : List β}

theorem left (h : List.Forall₂ R as bs) {a : α} (ha : a ∈ as) : ∃ b ∈ bs, R a b := by
  induction h with
  | nil => cases ha
  | cons hr _ ih =>
    rcases List.mem_cons.mp ha with rfl | ha
    · exact ⟨_, List.mem_cons_self, hr⟩
    · obtain ⟨b, hb, hr⟩ := ih ha
      exact ⟨b, List.mem_cons_of_mem _ hb, hr⟩

theorem right (h : List.Forall₂ R as bs) {b : β} (hb : b ∈ bs) : ∃ a ∈ as, R a b :=
  left h.flip hb

theorem imp_right {S : α → β → Prop} (h : List.Forall₂ R as bs) (hs : ∀ a b, b ∈ bs → R a b → S a b) :
    List.Forall₂ S as bs := by
  induction h with
  | nil => exact .nil
  | cons hr _ ih =>
    exact .cons (hs _ _ List.mem_cons_self hr) (ih fun a b hb => hs a b (List.mem_cons_of_mem _ hb))

/-- Where what corresponds has one name, the names of both lists are the same. -/
theorem names (h : List.Forall₂ R as bs) {f : α → String} {g : β → String} (hn : ∀ a b, R a b → f a = g b) :
    as.map f = bs.map g := by
  induction h with
  | nil => rfl
  | cons hr _ ih => rw [List.map_cons, List.map_cons, hn _ _ hr, ih]

/-- What a list is mapped to, where every item has an outcome. -/
theorem of_mapM {ε : Type} {f : α → Except ε β} :
    ∀ {as : List α} {bs : List β}, as.mapM f = .ok bs → List.Forall₂ (fun a b => f a = .ok b) as bs
  | [], bs, h => by
    cases h
    exact .nil
  | a :: as, bs, h => by
    rw [List.mapM_cons] at h
    cases ha : f a with
    | error e =>
      rw [ha] at h
      cases h
    | ok b =>
      cases hs : as.mapM f with
      | error e =>
        rw [ha, hs] at h
        cases h
      | ok bs' =>
        rw [ha, hs] at h
        cases h
        exact .cons ha (of_mapM hs)

theorem mapM_of {ε : Type} {f : α → Except ε β} (h : List.Forall₂ (fun a b => f a = .ok b) as bs) :
    as.mapM f = .ok bs := by
  induction h with
  | nil => rfl
  | cons ha _ ih =>
    rw [List.mapM_cons, ha, ih]
    rfl

/-- A list is mapped where a function says what each item comes to. -/
theorem mapM_eq_ok_iff {ε : Type} [Inhabited β] {f : α → Except ε β} :
    as.mapM f = .ok bs ↔ ∃ g : α → β, bs = as.map g ∧ ∀ a ∈ as, f a = .ok (g a) := by
  constructor
  · intro h
    refine ⟨fun a => (f a).toOption.getD default, ?_, ?_⟩
    · have hall := of_mapM h
      clear h
      induction hall with
      | nil => rfl
      | cons ha _ ih => rw [List.map_cons, ← ih, ha]; rfl
    · intro a ha
      obtain ⟨b, -, hb⟩ := left (of_mapM h) ha
      show f a = .ok ((f a).toOption.getD default)
      rw [hb]
      rfl
  · rintro ⟨g, rfl, hg⟩
    refine mapM_of ?_
    rw [List.forall₂_map_right_iff, List.forall₂_same]
    exact hg

/-- Where every item has a partner in two ways at once, the partners make one list. -/
theorem exists_both {S : α → β → Prop} (h : ∀ a ∈ as, ∃ b, R a b ∧ S a b) :
    ∃ bs, List.Forall₂ R as bs ∧ List.Forall₂ S as bs := by
  induction as with
  | nil => exact ⟨[], .nil, .nil⟩
  | cons a rest ih =>
    obtain ⟨b, hr, hs⟩ := h a List.mem_cons_self
    obtain ⟨bs, hrs, hss⟩ := ih fun a ha => h a (List.mem_cons_of_mem _ ha)
    exact ⟨b :: bs, .cons hr hrs, .cons hs hss⟩

theorem map_fst_zip_sublist (as : List α) (bs : List β) : ((as.zip bs).map Prod.fst).Sublist as := by
  induction as generalizing bs with
  | nil => exact .slnil
  | cons a rest ih =>
    cases bs with
    | nil => exact List.nil_sublist _
    | cons b bs => exact (ih bs).cons_cons a

/-- Items at one place correspond. -/
theorem getElem? (h : List.Forall₂ R as bs) {i : Nat} {a : α} {b : β} (ha : as[i]? = some a)
    (hb : bs[i]? = some b) : R a b := by
  induction h generalizing i with
  | nil => cases ha
  | cons hr _ ih =>
    cases i with
    | zero =>
      cases ha
      cases hb
      exact hr
    | succ i => exact ih ha hb

/-- An item is put in its place where it corresponds to what is there. -/
theorem set_right (h : List.Forall₂ R as bs) {i : Nat} {b : β} (hb : ∀ a, as[i]? = some a → R a b) :
    List.Forall₂ R as (bs.set i b) := by
  induction h generalizing i with
  | nil => exact .nil
  | cons hr hrest ih =>
    cases i with
    | zero => exact .cons (hb _ rfl) hrest
    | succ i => exact .cons hr (ih fun a ha => hb a ha)

/-- Cells are filled from left to right, each by the step for its item; an item without a step leaves its cell
blank. `mk` is the state with given cells. -/
theorem foldlM_fill {ε σ ξ : Type} (mk : List β → σ) (step? : ξ → Option α) (step : σ → α → Except ε σ) (blank : β)
    (S : ξ → β → Prop) (hblank : ∀ x, step? x = none → S x blank) (xs : List ξ)
    (hstep : ∀ x a before after, xs[before.length]? = some x → step? x = some a →
      before.length + after.length + 1 = xs.length →
      ∃ y, S x y ∧ step (mk (before ++ blank :: after)) a = .ok (mk (before ++ y :: after))) :
    ∃ ys, (xs.filterMap step?).foldlM step (mk (List.replicate xs.length blank)) = .ok (mk ys) ∧
      List.Forall₂ S xs ys := by
  -- the cells before those of `rest` are filled
  suffices ∀ rest before, before.length + rest.length = xs.length → xs.drop before.length = rest →
      ∃ ys, (rest.filterMap step?).foldlM step (mk (before ++ List.replicate rest.length blank)) =
        .ok (mk (before ++ ys)) ∧ List.Forall₂ S rest ys from this xs [] (Nat.zero_add _) rfl
  intro rest
  induction rest with
  | nil =>
    intro before _ _
    exact ⟨[], rfl, .nil⟩
  | cons x rest ih =>
    intro before hlen hdrop
    have hx : xs[before.length]? = some x := by
      rw [← List.head?_drop, hdrop]
      rfl
    have hnext : ∀ y : β, xs.drop (before ++ [y]).length = rest := fun y => by
      rw [List.length_append, List.length_singleton, ← List.drop_drop, hdrop]
      rfl
    have hnextLen : ∀ y : β, (before ++ [y]).length + rest.length = xs.length := fun y => by
      rw [List.length_append, List.length_singleton]
      rw [List.length_cons] at hlen
      omega
    rw [List.length_cons, List.replicate_succ]
    cases ha : step? x with
    | none =>
      obtain ⟨ys, hfold, hall⟩ := ih (before ++ [blank]) (hnextLen blank) (hnext blank)
      refine ⟨blank :: ys, ?_, .cons (hblank x ha) hall⟩
      rw [List.append_assoc, List.append_assoc] at hfold
      rw [List.filterMap_cons_none ha]
      exact hfold
    | some a =>
      obtain ⟨y, hy, hok⟩ := hstep x a before (List.replicate rest.length blank) hx ha (by
        simp only [List.length_replicate, List.length_cons] at hlen ⊢
        omega)
      obtain ⟨ys, hfold, hall⟩ := ih (before ++ [y]) (hnextLen y) (hnext y)
      refine ⟨y :: ys, ?_, .cons hy hall⟩
      rw [List.append_assoc, List.append_assoc] at hfold
      rw [List.filterMap_cons_some ha, List.foldlM_cons, hok]
      exact hfold

end DocWire.Pairing
