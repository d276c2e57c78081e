/-
  DocWire.Proofs.Alike — outcomes that look the same, and folds whose order cannot be seen.

  States are looked at through a function `seen`, which may leave out what is of no interest. Two outcomes are alike where
  both are failures, whatever the causes, or both are successes whose results look the same. A fold over other states that
  look the same is alike where its steps are (`Orderless.foldlM_same`). Where moreover any two of its elements, taken in
  either order, are alike, all orders are (`Orderless.foldlM_perm`), by following how the elements were moved. Items that
  only stand for elements, or for nothing, or are refused, can be moved where what they stand for can
  (`Orderless.stepFor`).
-/

import DocWire.Proofs.Outcome
import Mathlib.Data.List.Perm.Basic

namespace DocWire.Outcome

variable {ε ε' α β γ δ : Type}

/-- Two failures, or two successes with results that look the same. -/
def Alike (seen : α → β) (x y : Except ε α) : Prop := x.toOption.map seen = y.toOption.map seen

section

variable {seen : α → β} {x y z : Except ε α}

theorem Alike.refl (x : Except ε α) : Alike seen x x := rfl

theorem Alike.trans (h : Alike seen x y) (h' : Alike seen y z) : Alike seen x z := Eq.trans h h'

theorem alike_ok {a b : α} : Alike seen (.ok a : Except ε α) (.ok b) ↔ seen a = seen b := Option.some_inj

theorem alike_error (e e' : ε) : Alike seen (.error e) (.error e' : Except ε α) := rfl

theorem Alike.cases (h : Alike seen x y) :
    (∃ a b, x = .ok a ∧ y = .ok b ∧ seen a = seen b) ∨ ((∃ e, x = .error e) ∧ ∃ e, y = .error e) := by
  cases x with
  | ok a =>
    cases y with
    | ok b => exact .inl ⟨a, b, rfl, rfl, alike_ok.mp h⟩
    | error e => cases h
  | error e =>
    cases y with
    | ok b => cases h
    | error e' => exact .inr ⟨⟨e, rfl⟩, ⟨e', rfl⟩⟩

/-- What follows outcomes that are alike. -/
theorem Alike.bind {seen' : γ → δ} {f g : α → Except ε γ} (h : Alike seen x y)
    (hf : ∀ a b, x = .ok a → y = .ok b → seen a = seen b → Alike seen' (f a) (g b)) :
    Alike seen' (x.bind f) (y.bind g) := by
  rcases h.cases with ⟨a, b, rfl, rfl, hab⟩ | ⟨⟨e, rfl⟩, ⟨e', rfl⟩⟩
  · exact hf a b rfl rfl hab
  · exact alike_error e e'

theorem toOption_eq_some {a : α} : x.toOption = some a ↔ x = .ok a := by
  cases x with
  | error e => exact iff_of_false (by simp [Except.toOption]) (by simp)
  | ok b => simp [Except.toOption]

/-- Checks that pass in the same cases are alike. -/
theorem alike_of_ok_iff {x y : Except ε Unit} (h : x = .ok () ↔ y = .ok ()) : Alike id x y := by
  cases x with
  | ok u => exact (h.mp rfl) ▸ Alike.refl _
  | error e =>
    cases y with
    | ok u => cases h.mpr rfl
    | error e' => exact alike_error e e'

/-- Outcomes that become the same when they are looked at are alike. -/
theorem alike_of_map (h : x.map seen = y.map seen) : Alike seen x y := by
  cases x with
  | ok a =>
    cases y with
    | ok b => exact alike_ok.mpr (Except.ok.inj h)
    | error e => cases h
  | error e =>
    cases y with
    | ok b => cases h
    | error e' => exact alike_error e e'

theorem Alike.mapError {f : ε → ε'} (h : Alike seen x y) : Alike seen (x.mapError f) (y.mapError f) := by
  rcases h.cases with ⟨a, b, rfl, rfl, hab⟩ | ⟨⟨e, rfl⟩, ⟨e', rfl⟩⟩
  · exact alike_ok.mpr hab
  · exact alike_error _ _

/-- Where results that look the same are the same, the outcomes have the same result or none. -/
theorem Alike.toOption_eq (hseen : Function.Injective seen) (h : Alike seen x y) : x.toOption = y.toOption :=
  Option.map_injective hseen h

end

/-! ## Folds -/

variable {σ τ : Type}

/-- Steps over states with `I` whose order cannot be seen for elements that are related by `P`. -/
structure Orderless (I : σ → Prop) (seen : σ → τ) (step : σ → α → Except ε σ) (P : α → α → Prop) : Prop where
  kept {s s' : σ} {a : α} : I s → step s a = .ok s' → I s'
  same {s s' : σ} (a : α) : I s → I s' → seen s = seen s' → Alike seen (step s a) (step s' a)
  swap {s : σ} {a b : α} : I s → P a b → Alike seen ((step s a).bind (step · b)) ((step s b).bind (step · a))

variable {I : σ → Prop} {seen : σ → τ} {step : σ → α → Except ε σ} {P : α → α → Prop} {as bs : List α} {s s' : σ}

theorem Orderless.foldlM_same (h : Orderless I seen step P) (hi : I s) (hi' : I s') (hs : seen s = seen s') :
    Alike seen (as.foldlM step s) (as.foldlM step s') := by
  induction as generalizing s s' with
  | nil => exact alike_ok.mpr hs
  | cons a rest ih =>
    rw [List.foldlM_cons, List.foldlM_cons]
    exact (h.same a hi hi' hs).bind fun t t' ht ht' hseen => ih (h.kept hi ht) (h.kept hi' ht') hseen

theorem foldlM_two (step : σ → α → Except ε σ) (a b : α) (rest : List α) (s : σ) :
    (a :: b :: rest).foldlM step s = ((step s a).bind (step · b)).bind fun t => rest.foldlM step t := by
  rw [List.foldlM_cons]
  show (step s a).bind (fun t => (step t b).bind fun u => rest.foldlM step u) = _
  cases step s a <;> rfl

theorem Orderless.kept_two (h : Orderless I seen step P) {a b : α} (hi : I s)
    (hok : (step s a).bind (step · b) = .ok s') : I s' := by
  obtain ⟨t, ht, hok⟩ := bind_eq_ok.mp hok
  exact h.kept (h.kept hi ht) hok

/-- Where any two elements can change places, they can be taken in any order. -/
theorem Orderless.foldlM_perm (h : Orderless I seen step P) (hperm : as.Perm bs) (hp : ∀ a ∈ as, ∀ b ∈ as, P a b)
    (hi : I s) (hi' : I s') (hs : seen s = seen s') : Alike seen (as.foldlM step s) (bs.foldlM step s') := by
  induction hperm generalizing s s' with
  | nil => exact alike_ok.mpr hs
  | cons a _ ih =>
    rw [List.foldlM_cons, List.foldlM_cons]
    refine (h.same a hi hi' hs).bind fun t t' ht ht' hseen => ih ?_ (h.kept hi ht) (h.kept hi' ht') hseen
    exact fun b hb c hc => hp b (List.mem_cons_of_mem _ hb) c (List.mem_cons_of_mem _ hc)
  | swap a b rest =>
    -- the two in front change places in the first state, and the second state looks the same
    have hswap := h.swap hi (hp b List.mem_cons_self a (List.mem_cons_of_mem _ List.mem_cons_self))
    have hmoved : Alike seen ((b :: a :: rest).foldlM step s) ((a :: b :: rest).foldlM step s) := by
      rw [foldlM_two, foldlM_two]
      exact hswap.bind fun t t' ht ht' hseen => h.foldlM_same (h.kept_two hi ht) (h.kept_two hi ht') hseen
    exact hmoved.trans (h.foldlM_same hi hi' hs)
  | trans hfirst _ ih ih' =>
    refine (ih hp hi hi rfl).trans (ih' ?_ hi hi' hs)
    exact fun a ha b hb => hp a (hfirst.mem_iff.mpr ha) b (hfirst.mem_iff.mpr hb)

/-- The step for what an item stands for; an item may stand for nothing, or be refused. -/
def stepFor (kind : γ → Except ε (Option α)) (step : σ → α → Except ε σ) (s : σ) (x : γ) : Except ε σ :=
  (kind x).bind fun a? => a?.elim (.ok s) (step s)

section

variable {kind : γ → Except ε (Option α)} {x : γ} {r : Except ε σ}

/-- Behind whatever comes first, a refused item refuses. -/
theorem stepFor_refused {e : ε} (hx : kind x = .error e) : (r.bind fun s => stepFor kind step s x).toOption = none := by
  cases r with
  | error e' => rfl
  | ok s => simp only [Except.bind, stepFor, hx, Except.toOption]

/-- An item that stands for nothing leaves what comes first as it is. -/
theorem stepFor_nothing (hx : kind x = .ok none) : (r.bind fun s => stepFor kind step s x) = r := by
  cases r with
  | error e => rfl
  | ok s => simp only [Except.bind, stepFor, hx, Option.elim]

end

/-- Items can change places where what they stand for can. -/
theorem Orderless.stepFor {kind : γ → Except ε (Option α)} (h : Orderless I seen step P) :
    Orderless I seen (stepFor kind step) fun x y => ∀ a b, kind x = .ok (some a) → kind y = .ok (some b) → P a b where
  kept := by
    intro s s' x hi hok
    obtain ⟨a?, -, hstep⟩ := bind_eq_ok.mp hok
    cases a? with
    | none =>
      cases hstep
      exact hi
    | some a => exact h.kept hi hstep
  same := by
    intro s s' x hi hi' hs
    have hkind : Alike id (kind x) (kind x) := Alike.refl _
    refine hkind.bind fun a? a?' _ _ (he : a? = a?') => ?_
    subst he
    cases a? with
    | none => exact alike_ok.mpr hs
    | some a => exact h.same a hi hi' hs
  swap := by
    intro s x y hi hp
    rcases hx : kind x with e | _ | a
    · rw [Alike, stepFor_refused hx]
      simp only [Outcome.stepFor, hx, Except.bind, Except.toOption]
    · rw [stepFor_nothing hx]
      simp only [Outcome.stepFor, hx, Except.bind, Option.elim]
      exact Alike.refl _
    · rcases hy : kind y with e | _ | b
      · rw [Alike, stepFor_refused hy]
        simp only [Outcome.stepFor, hy, Except.bind, Except.toOption]
      · rw [stepFor_nothing hy]
        simp only [Outcome.stepFor, hy, Except.bind, Option.elim]
        exact Alike.refl _
      · have hswap := h.swap hi (hp a b hx hy)
        simp only [Outcome.stepFor, hx, hy, Except.bind, Option.elim] at hswap ⊢
        exact hswap

end DocWire.Outcome
