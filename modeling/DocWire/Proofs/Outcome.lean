/-
  DocWire.Proofs.Outcome — when an outcome that is mapped is a success, and what operations in place come to.
-/

namespace DocWire.Outcome

variable {ε ε' α β : Type}

theorem map_eq_ok {x : Except ε α} {f : α → β} {b : β} : x.map f = .ok b ↔ ∃ a, x = .ok a ∧ f a = b := by
  cases x with
  | error e => simp [Except.map]
  | ok a => simp [Except.map]

theorem map_eq_error {x : Except ε α} {f : α → β} {e : ε} : x.map f = .error e ↔ x = .error e := by
  cases x with
  | error e => simp [Except.map]
  | ok a => simp [Except.map]

/-- An outcome that is mapped is a success exactly where it was one. -/
theorem exists_map_ok {x : Except ε α} {f : α → β} : (∃ b, x.map f = .ok b) ↔ ∃ a, x = .ok a := by
  constructor
  · rintro ⟨b, hb⟩
    obtain ⟨a, ha, -⟩ := map_eq_ok.mp hb
    exact ⟨a, ha⟩
  · rintro ⟨a, rfl⟩
    exact ⟨f a, rfl⟩

theorem bind_eq_ok {x : Except ε α} {f : α → Except ε β} {b : β} :
    x.bind f = .ok b ↔ ∃ a, x = .ok a ∧ f a = .ok b := by
  cases x with
  | error e => simp [Except.bind]
  | ok a => simp [Except.bind]

/-- What every step of a fold keeps, the fold keeps. -/
theorem foldlM_keeps {σ : Type} {P : σ → Prop} {f : σ → α → Except ε σ}
    (hf : ∀ s a s', P s → f s a = .ok s' → P s') {as : List α} {s s' : σ} (hp : P s)
    (hok : as.foldlM f s = .ok s') : P s' := by
  induction as generalizing s with
  | nil =>
    cases hok
    exact hp
  | cons a rest ih =>
    rw [List.foldlM_cons] at hok
    obtain ⟨t, ht, hrest⟩ := bind_eq_ok.mp hok
    exact ih (hf s a t hp ht) hrest

/-- What every step demands of its element, from a state that steps keep, holds of all elements behind a fold that
succeeds. -/
theorem foldlM_demands {σ : Type} {I : σ → Prop} {P : α → Prop} {f : σ → α → Except ε σ}
    (hf : ∀ s a s', I s → f s a = .ok s' → I s' ∧ P a) {as : List α} {s s' : σ} (hi : I s)
    (hok : as.foldlM f s = .ok s') : ∀ a ∈ as, P a := by
  induction as generalizing s with
  | nil =>
    intro a ha
    cases ha
  | cons a rest ih =>
    rw [List.foldlM_cons] at hok
    obtain ⟨t, ht, hrest⟩ := bind_eq_ok.mp hok
    obtain ⟨hi, ha⟩ := hf s a t hi ht
    intro b hb
    rcases List.mem_cons.mp hb with rfl | hb
    · exact ha
    · exact ih hi hrest b hb

/-- Steps that leave the state as it is leave it as it is together. -/
theorem foldlM_stays {σ : Type} {f : σ → α → Except ε σ} {as : List α} {s : σ} (hf : ∀ a ∈ as, f s a = .ok s) :
    as.foldlM f s = .ok s := by
  induction as with
  | nil => rfl
  | cons a rest ih =>
    rw [List.foldlM_cons, hf a List.mem_cons_self]
    exact ih fun b hb => hf b (List.mem_cons_of_mem _ hb)

theorem mapError_eq_ok {x : Except ε α} {f : ε → ε'} {a : α} : x.mapError f = .ok a ↔ x = .ok a := by
  cases x with
  | error e => constructor <;> intro h <;> cases h
  | ok b => constructor <;> intro h <;> cases h <;> rfl

/-- Whether an outcome is a failure can be decided, whatever it would have been. -/
instance decidableFails (x : Except ε α) : Decidable (∀ a, x ≠ .ok a) :=
  match x with
  | .error _ => isTrue fun a h => by cases h
  | .ok a => isFalse fun h => h a rfl

theorem exists_ok {x : Except ε α} (h : x.toBool = true) : ∃ a, x = .ok a := by
  cases x with
  | error e => cases h
  | ok a => exact ⟨a, rfl⟩

theorem exists_error {x : Except ε α} (h : x.toBool = false) : ∃ e, x = .error e := by
  cases x with
  | error e => exact ⟨e, rfl⟩
  | ok a => cases h

theorem exists_error_iff {x : Except ε α} : (∃ e, x = .error e) ↔ ¬ ∃ a, x = .ok a := by
  cases x with
  | error e =>
    refine iff_of_true ⟨e, rfl⟩ ?_
    rintro ⟨a, ha⟩
    cases ha
  | ok a =>
    refine iff_of_false ?_ fun hno => hno ⟨a, rfl⟩
    rintro ⟨e, he⟩
    cases he

/-- Two outcomes in a row that succeed, with what is asked of the second. -/
theorem exists_ok_ok {x : Except ε α} {f : α → Except ε' β} {p : β → Bool}
    (h : (x.toOption.bind fun a => (f a).toOption).any p = true) : ∃ a b, x = .ok a ∧ f a = .ok b ∧ p b = true := by
  cases x with
  | error e => cases h
  | ok a =>
    cases hb : f a with
    | error e =>
      simp only [Except.toOption, Option.bind_some, hb] at h
      cases h
    | ok b =>
      simp only [Except.toOption, Option.bind_some, hb] at h
      exact ⟨a, b, rfl, hb, h⟩

theorem map_ok (a : α) (f : α → β) : (Except.ok a : Except ε α).map f = .ok (f a) := rfl

theorem mapError_ok (a : α) (f : ε → ε') : (Except.ok a : Except ε α).mapError f = .ok a := rfl

/-! ## Operations in place -/

/-- What an operation that changes a state in place comes to: its result, and the state that it leaves behind. -/
def inPlace {σ : Type} (x : ExceptT ε (StateM σ) α) (s : σ) : Except ε α × σ := x.run.run s

/-- An operation that follows another: it finds the state as that one left it, unless that one failed. -/
theorem inPlace_bind {σ : Type} (x : ExceptT ε (StateM σ) α) (f : α → ExceptT ε (StateM σ) β) (s : σ) :
    inPlace (x >>= f) s =
      match inPlace x s with
      | (.ok a, s') => inPlace (f a) s'
      | (.error e, s') => (.error e, s') := by
  unfold inPlace
  rw [ExceptT.run_bind, StateT.run_bind]
  show (match x.run.run s with | (r, s') => _) = _
  rcases x.run.run s with ⟨r, s'⟩
  cases r <;> rfl

section

variable {σ : Type} (s : σ)

@[simp] theorem inPlace_pure (a : α) : inPlace (pure a : ExceptT ε (StateM σ) α) s = (.ok a, s) := rfl

@[simp] theorem inPlace_throw (e : ε) : inPlace (throw e : ExceptT ε (StateM σ) α) s = (.error e, s) := rfl

@[simp] theorem inPlace_get : inPlace (MonadState.get : ExceptT ε (StateM σ) σ) s = (.ok s, s) := rfl

@[simp] theorem inPlace_modify (f : σ → σ) : inPlace (modify f : ExceptT ε (StateM σ) PUnit) s = (.ok ⟨⟩, f s) := rfl

/-- An outcome that was come to elsewhere is taken over; the state is not touched. -/
@[simp] theorem inPlace_ofExcept (x : Except ε α) :
    inPlace (MonadExcept.ofExcept x : ExceptT ε (StateM σ) α) s = (x, s) := by
  cases x <;> rfl

end

end DocWire.Outcome
