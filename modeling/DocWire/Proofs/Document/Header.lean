/-
  DocWire.Proofs.Document.Header — a header is told by what it lists.
-/

import DocWire.Document.Header
import DocWire.Proofs.Lookup

namespace DocWire

namespace HeaderField

theorem ofAttribute?_attributeName (f : HeaderField) : ofAttribute? f.attributeName = some f := by
  cases f <;> decide

theorem attributeName_injective : Function.Injective attributeName := fun f g h => by
  have hf := ofAttribute?_attributeName f
  rw [h, ofAttribute?_attributeName, Option.some_inj] at hf
  exact hf.symm

theorem all_nodup : all.Nodup := by decide

end HeaderField

namespace Header

theorem entries_sublist (h : Header) : (h.entries.map Prod.fst).Sublist HeaderField.all := by
  unfold entries
  induction HeaderField.all with
  | nil => exact List.Sublist.slnil
  | cons f rest ih =>
    cases hf : h.get f with
    | none =>
      rw [List.filterMap_cons_none (by rw [hf]; rfl)]
      exact ih.cons f
    | some value =>
      rw [List.filterMap_cons_some (by rw [hf]; rfl)]
      exact ih.cons_cons f

/-- Sets fields one after the other. -/
def setAll (h : Header) (entries : List (HeaderField × String)) : Header :=
  entries.foldl (fun h (f, value) => h.set f value) h

/-- Where the entries of a header are set, its fields have their texts, and all others keep what they had. -/
theorem get_setAll_entries (h start : Header) (f : HeaderField) :
    (start.setAll h.entries).get f = (h.get f).or (start.get f) := by
  suffices ∀ (fs : List HeaderField) (start : Header),
      (start.setAll (fs.filterMap fun f => (h.get f).map fun value => (f, value))).get f =
        if f ∈ fs then (h.get f).or (start.get f) else start.get f by
    rw [entries, this, if_pos (HeaderField.mem_all f)]
  intro fs
  induction fs with
  | nil => exact fun _ => rfl
  | cons g rest ih =>
    intro start
    cases hg : h.get g with
    | none =>
      rw [List.filterMap_cons_none (by rw [hg]; rfl), ih]
      by_cases he : f = g
      · subst he
        simp [hg]
      · simp [he]
    | some value =>
      rw [List.filterMap_cons_some (by rw [hg]; rfl)]
      show (setAll (start.set g value) _).get f = _
      rw [ih, get_set]
      by_cases he : f = g
      · subst he
        simp [hg]
      · simp [he]

/-- The fields that are set, each with its text under a name. -/
def named (h : Header) (nameOf : HeaderField → String) : List (String × String) :=
  h.entries.map fun (f, value) => (nameOf f, value)

/-- A header is told by its fields under any names that tell them apart, and the creation stamp behind them by two
names of its own. -/
theorem lookup_stamped (h : Header) {nameOf : HeaderField → String} (hinj : Function.Injective nameOf) {date time : String}
    (hstamp : ∀ f, nameOf f ≠ date ∧ nameOf f ≠ time) (hne : time ≠ date) (x y : String) :
    (∀ f, (h.named nameOf ++ [(date, x), (time, y)]).lookup (nameOf f) = h.get f) ∧
      (h.named nameOf ++ [(date, x), (time, y)]).lookup date = some x ∧
      (h.named nameOf ++ [(date, x), (time, y)]).lookup time = some y := by
  have hfields : h.named nameOf = HeaderField.all.filterMap fun f => (h.get f).map fun value => (nameOf f, value) := by
    rw [named, entries, List.map_filterMap]
    congr 1
    funext f
    cases h.get f with
    | none => rfl
    | some value => rfl
  have hbehind : ∀ name, (∀ f, nameOf f ≠ name) → name ∉ (h.named nameOf).map Prod.fst := by
    intro name hname hm
    obtain ⟨p, hp, rfl⟩ := List.mem_map.mp hm
    obtain ⟨e, -, rfl⟩ := List.mem_map.mp hp
    exact hname e.1 rfl
  refine ⟨?_, ?_, ?_⟩
  · intro f
    have hdate : (nameOf f == date) = false := by simp [(hstamp f).1]
    have htime : (nameOf f == time) = false := by simp [(hstamp f).2]
    have hnone : List.lookup (nameOf f) [(date, x), (time, y)] = none := by simp [List.lookup_cons, hdate, htime]
    rw [List.lookup_append, hnone, Option.or_none, hfields]
    exact Lookup.lookup_filterMap (HeaderField.all_nodup.map hinj) f.mem_all
  · rw [Lookup.lookup_behind (hbehind date fun f => (hstamp f).1)]
    exact List.lookup_cons_self
  · have hlast : (time == date) = false := by simp [hne]
    rw [Lookup.lookup_behind (hbehind time fun f => (hstamp f).2), List.lookup_cons, hlast]
    exact List.lookup_cons_self

end Header

end DocWire
