/-
  DocWire.Proofs.Schema.Offsets — where the fields of a segment stand in its record.

  A field takes the bytes of its byte length, or of its length on the wire where it states no byte length. The rule is
  that fields stand one behind the other: each begins where those before it end. A segment type that states a place for
  any of its fields is left as it is. For every other one lengths are added up from field to field, and the sum is kept
  in a word of 64 bits, though nothing bounds the lengths that a definition may state.

  So what is assigned is the sum of the lengths before, modulo 2^64 (`Assigned`), and the rule is kept up to the first
  field before which 2^64 bytes are taken. That field begins before its predecessor ends, whatever its lengths
  (`Assigned.inOrder_iff`), and from there on every field that takes any bytes takes some of another one
  (`Assigned.apart_iff`).

  - `offsets_assigned`: this holds of every reached segment type of every definition that compiles.
  - `offsets_wrapped`: a card whose third field takes the first byte of its first.
-/

import DocWire.Proofs.Schema.Registry
import Mathlib.Algebra.Ring.Nat

namespace DocWire

namespace FieldDecl

/-- The bytes that a field takes in a record. -/
def width (f : FieldDecl) : Nat := if f.byteLength = 0 then f.length else f.byteLength

/-- A field with the bytes that it takes, at a place. -/
def placedAt (f : FieldDecl) (offset : Nat) : FieldDecl := { f with byteLength := f.width, offset := offset }

/-- A byte of the record is one of the field's. -/
def Covers (f : FieldDecl) (byte : Nat) : Prop := f.offset ≤ byte ∧ byte < f.offset + f.byteLength

/-- The lengths that a field states are words. -/
structure WordSized (f : FieldDecl) : Prop where
  length : f.length < 2 ^ 64
  byteLength : f.byteLength < 2 ^ 64

theorem WordSized.width_lt {f : FieldDecl} (h : f.WordSized) : f.width < 2 ^ 64 := by
  unfold width
  split
  · exact h.length
  · exact h.byteLength

end FieldDecl

namespace Compile

/-! ## Records -/

/-- The bytes that the fields before a place in the list take together. -/
def front (fields : List FieldDecl) (i : Nat) : Nat := ((fields.take i).map (·.byteLength)).sum

/-- Every field begins where those before it end, in a word. -/
def Assigned (fields : List FieldDecl) : Prop := ∀ i f, fields[i]? = some f → f.offset = front fields i % 2 ^ 64

/-- No field begins before all fields in front of it have ended. -/
def InOrder (fields : List FieldDecl) : Prop := fields.Pairwise fun f g => f.offset + f.byteLength ≤ g.offset

/-- No byte of the record belongs to two fields. -/
def Apart (fields : List FieldDecl) : Prop := fields.Pairwise fun f g => ∀ byte, ¬ (f.Covers byte ∧ g.Covers byte)

instance (fields : List FieldDecl) : Decidable (InOrder fields) :=
  inferInstanceAs (Decidable (fields.Pairwise fun f g => f.offset + f.byteLength ≤ g.offset))

variable {fields : List FieldDecl}

@[simp] theorem front_zero : front fields 0 = 0 := rfl

@[simp] theorem front_cons (f : FieldDecl) (i : Nat) : front (f :: fields) (i + 1) = f.byteLength + front fields i := by
  simp [front]

theorem front_succ {i : Nat} {f : FieldDecl} (h : fields[i]? = some f) :
    front fields (i + 1) = front fields i + f.byteLength := by
  simp [front, List.take_add_one, h]

theorem front_mono {i j : Nat} (h : i ≤ j) : front fields i ≤ front fields j := by
  induction h with
  | refl => exact Nat.le_refl _
  | @step j _ ih =>
    cases hj : fields[j]? with
    | some f =>
      rw [front_succ hj]
      omega
    | none =>
      have hlen := List.getElem?_eq_none_iff.mp hj
      unfold front at ih ⊢
      rw [List.take_of_length_le hlen] at ih
      rw [List.take_of_length_le (Nat.le_succ_of_le hlen)]
      exact ih

/-- A byte before a place belongs, as far as lengths are added up exactly, to one of the fields before it. -/
theorem exists_field_of_lt_front {byte : Nat} : ∀ {n : Nat}, byte < front fields n →
    ∃ j f, j < n ∧ fields[j]? = some f ∧ front fields j ≤ byte ∧ byte < front fields j + f.byteLength := by
  intro n
  induction n with
  | zero =>
    intro h
    simp at h
  | succ n ih =>
    intro h
    by_cases hn : byte < front fields n
    · obtain ⟨j, f, hj, hf⟩ := ih hn
      exact ⟨j, f, by omega, hf⟩
    · cases hf : fields[n]? with
      | some f =>
        rw [front_succ hf] at h
        exact ⟨n, f, by omega, hf, by omega, h⟩
      | none =>
        have hlen := List.getElem?_eq_none_iff.mp hf
        unfold front at h hn
        rw [List.take_of_length_le (Nat.le_succ_of_le hlen)] at h
        rw [List.take_of_length_le hlen] at hn
        exact absurd h hn

theorem pairwise_iff_getElem? {R : FieldDecl → FieldDecl → Prop} :
    fields.Pairwise R ↔ ∀ (i j : Nat) (f g : FieldDecl), i < j → fields[i]? = some f → fields[j]? = some g → R f g := by
  rw [List.pairwise_iff_getElem]
  constructor
  · intro h i j f g hij hf hg
    obtain ⟨hi, rfl⟩ := List.getElem?_eq_some_iff.mp hf
    obtain ⟨hj, rfl⟩ := List.getElem?_eq_some_iff.mp hg
    exact h i j hi hj hij
  · intro h i j hi hj hij
    exact h i j _ _ hij (List.getElem?_eq_getElem hi) (List.getElem?_eq_getElem hj)

namespace Assigned

variable (h : Assigned fields)
include h

theorem exact_iff {i : Nat} {f : FieldDecl} (hf : fields[i]? = some f) :
    f.offset = front fields i ↔ front fields i < 2 ^ 64 := by
  have := h i f hf
  omega

/-- Fields stand in their order exactly where all sums stay in a word. The first sum that does not is that of a field
behind one that stands where it should, and what is left of the sum is less than where that one ends. -/
theorem inOrder_iff : InOrder fields ↔ ∀ i < fields.length, front fields i < 2 ^ 64 := by
  rw [InOrder, pairwise_iff_getElem?]
  constructor
  · intro hordered i
    induction i with
    | zero =>
      intro _
      simp
    | succ i ih =>
      intro hi
      have hf := List.getElem?_eq_getElem (l := fields) (i := i) (by omega)
      have hg := List.getElem?_eq_getElem hi
      have hend := hordered i (i + 1) _ _ (by omega) hf hg
      have hexact := (h.exact_iff hf).mpr (ih (by omega))
      have hnext := h _ _ hg
      rw [front_succ hf] at hnext ⊢
      omega
  · intro hsums i j f g hij hf hg
    obtain ⟨hj, -⟩ := List.getElem?_eq_some_iff.mp hg
    have hfirst := (h.exact_iff hf).mpr (hsums i (by omega))
    have hsecond := (h.exact_iff hg).mpr (hsums j hj)
    have hle : front fields (i + 1) ≤ front fields j := front_mono hij
    rw [front_succ hf] at hle
    omega

/-- Of fields that take less than a word each, none shares a byte with another exactly where all that take any bytes
have a sum that stays in a word. The first one that does not begins less than 2^64 bytes before the end of those in
front of it, so one of those is there already. -/
theorem apart_iff (hwidth : ∀ f ∈ fields, f.byteLength < 2 ^ 64) :
    Apart fields ↔ ∀ i f, fields[i]? = some f → f.byteLength ≠ 0 → front fields i < 2 ^ 64 := by
  rw [Apart, pairwise_iff_getElem?]
  constructor
  · intro hapart i
    induction i using Nat.strong_induction_on with
    | h i ih =>
      intro f hf htakes
      by_contra hover
      have hbelow : ∀ j ≤ i, front fields j < 2 ^ 65 := by
        intro j
        induction j with
        | zero =>
          intro _
          simp
        | succ j ihj =>
          intro hj
          have hlen := (List.getElem?_eq_some_iff.mp hf).1
          have hg := List.getElem?_eq_getElem (l := fields) (i := j) (by omega)
          have hsmall := hwidth _ (List.mem_of_getElem? hg)
          have hprev := ihj (by omega)
          rw [front_succ hg]
          by_cases hzero : fields[j].byteLength = 0
          · omega
          · have := ih j (by omega) _ hg hzero
            omega
      have hsum := hbelow i (Nat.le_refl i)
      have hoffset := h i f hf
      have hbefore : f.offset < front fields i := by omega
      obtain ⟨j, g, hj, hg, hstart, hend⟩ := exists_field_of_lt_front hbefore
      have hsecond := (h.exact_iff hg).mpr (by omega)
      exact hapart j i g f hj hg hf f.offset ⟨⟨by omega, by omega⟩, ⟨by omega, by omega⟩⟩
  · intro hsums i j f g hij hf hg byte ⟨⟨hfstart, hfend⟩, ⟨hgstart, hgend⟩⟩
    have hfirst := (h.exact_iff hf).mpr (hsums i f hf (by omega))
    have hsecond := (h.exact_iff hg).mpr (hsums j g hg (by omega))
    have hle : front fields (i + 1) ≤ front fields j := front_mono hij
    rw [front_succ hf] at hle
    omega

end Assigned

/-! ## Placing -/

theorem placeFields_assigned (fields : List FieldDecl) : ∀ {offset : Nat}, offset < 2 ^ 64 →
    ∀ i f, (placeFields offset fields)[i]? = some f → f.offset = (offset + front (placeFields offset fields) i) % 2 ^ 64 := by
  induction fields with
  | nil =>
    intro offset _ i f hf
    simp [placeFields] at hf
  | cons d rest ih =>
    intro offset hoffset i f hf
    have hnext : addOffset offset d.width < 2 ^ 64 := Nat.mod_lt _ (by decide)
    cases i with
    | zero =>
      simp only [placeFields, List.getElem?_cons_zero, Option.some.injEq] at hf
      subst hf
      simp only [front_zero]
      omega
    | succ i =>
      have hplace := ih hnext i f hf
      have hsum : front (placeFields offset (d :: rest)) (i + 1) =
          d.width + front (placeFields (addOffset offset d.width) rest) i := front_cons _ _
      have hadd : addOffset offset d.width = (offset + d.width) % 2 ^ 64 := rfl
      rw [hsum, hplace]
      omega

/-- Placing a field tells it the bytes that it takes and its place, and changes nothing else. -/
theorem placeFields_placed (fields : List FieldDecl) : ∀ offset,
    List.Forall₂ (fun f g => g = f.placedAt g.offset) fields (placeFields offset fields) := by
  induction fields with
  | nil =>
    intro offset
    exact .nil
  | cons d rest ih =>
    intro offset
    exact .cons rfl (ih _)

/-- Fields that are placed one behind the other, though none of them states its place. -/
structure Sequential (declared placed : List FieldDecl) : Prop where
  length : placed.length = declared.length
  /-- Each is told the bytes that it takes, and stands where those before it end, in a word; nothing else changes. -/
  assigned : ∀ (i : Nat) (f : FieldDecl), declared[i]? = some f → placed[i]? = some (f.placedAt (front placed i % 2 ^ 64))
  exact_iff : ∀ (i : Nat) (f : FieldDecl), placed[i]? = some f → (f.offset = front placed i ↔ front placed i < 2 ^ 64)
  inOrder_iff : InOrder placed ↔ ∀ i < placed.length, front placed i < 2 ^ 64
  apart_iff : (∀ f ∈ declared, f.WordSized) →
    (Apart placed ↔ ∀ (i : Nat) (f : FieldDecl), placed[i]? = some f → f.byteLength ≠ 0 → front placed i < 2 ^ 64)

theorem sequential_placeFields (declared : List FieldDecl) : Sequential declared (placeFields 0 declared) := by
  have hassigned : Assigned (placeFields 0 declared) := by
    intro i f hf
    have := placeFields_assigned declared (by decide) i f hf
    rwa [Nat.zero_add] at this
  have hplaced := placeFields_placed declared 0
  have hlength := hplaced.length_eq.symm
  refine ⟨hlength, ?_, fun i f hf => hassigned.exact_iff hf, hassigned.inOrder_iff, fun hwords => hassigned.apart_iff ?_⟩
  · intro i f hf
    have hi := (List.getElem?_eq_some_iff.mp hf).1
    have hg := List.getElem?_eq_getElem (l := placeFields 0 declared) (i := i) (by omega)
    have hsame := Pairing.getElem? hplaced hf hg
    rw [hassigned i _ hg] at hsame
    rw [hg, hsame]
  · intro g hg
    obtain ⟨f, hf, hsame⟩ := Pairing.right hplaced hg
    rw [hsame]
    exact (hwords f hf).width_lt

/-- What a segment type makes of the fields that its definition declares: they are placed where none of them states a
place, and left as they are where one does. -/
structure LaidOut (declared placed : List FieldDecl) : Prop where
  sequential : (∀ f ∈ declared, f.offset = 0) → Sequential declared placed
  stated : (∃ f ∈ declared, f.offset ≠ 0) → placed = declared

theorem laidOut_of_compileFields {owner : String} {declared placed : List FieldDecl}
    (h : compileFields owner declared = .ok placed) : LaidOut declared placed := by
  obtain ⟨-, rfl⟩ := compileFields_ok_iff.mp h
  by_cases hunplaced : ∀ f ∈ declared, f.offset = 0
  · rw [if_pos (by simpa using hunplaced)]
    refine ⟨fun _ => sequential_placeFields declared, ?_⟩
    rintro ⟨f, hf, hstated⟩
    exact absurd (hunplaced f hf) hstated
  · rw [if_neg (by simpa using hunplaced)]
    exact ⟨fun h => absurd h hunplaced, fun _ => rfl⟩

end Compile

namespace Registry

open Compile (Apart InOrder LaidOut front)

/-- Every reached segment type of a definition that compiles is found under its key, and has its fields laid out: each
where those before it end, exactly where that is a word, and in order and apart exactly where sums do not leave it; or,
where a place is stated, all as they are declared. -/
theorem offsets_assigned {schema : Definition} {r : Registry} (hr : compile schema = .ok r) :
    ∀ d ∈ schema.messageTypes, ∃ m, r.messageType d.key = .ok m ∧
      ∀ level, ∀ s ∈ d.segments, d.Reaches level s.segmentType →
        ∃ t, m.segment? (d.key.segmentKey s.segmentType) = some t ∧ LaidOut s.fields t.fields := by
  intro d hd
  obtain ⟨-, -, htypes⟩ := compile_eq_ok hr
  obtain ⟨m, hm, hok⟩ := Pairing.left (Compile.compileMessageTypes_ok _ htypes).1 hd
  obtain ⟨done, hc⟩ := Compile.compileMessageType_ok hok
  have hfound := messageType_key hr hm
  rw [hc.key] at hfound
  refine ⟨m, hfound, ?_⟩
  intro level s hs hreached
  obtain ⟨t, ht, hmade⟩ := hc.madeFrom hs hreached
  have hmem : t ∈ m.segments := by
    rw [hc.segments]
    exact List.mem_map.mpr ⟨_, ht, rfl⟩
  have hkey := hc.resolved.segment?_key (List.mem_cons_of_mem _ hmem)
  rw [hmade.key, hmade.name] at hkey
  exact ⟨t, hkey, Compile.laidOut_of_compileFields hmade.fields⟩

/-- Cards with given fields. -/
def cardType (fields : List FieldDecl) : MessageDef where
  key := ⟨"R", "CARDS", "", "", ""⟩
  root := [{ segmentType := "CARD" }]
  segments := [{ segmentType := "CARD", fields := fields }]

def cards (fields : List FieldDecl) : Definition where
  messageTypes := [cardType fields]

theorem card_reached (fields : List FieldDecl) : (cardType fields).Reaches 1 "CARD" :=
  .top (c := { segmentType := "CARD" }) List.mem_cons_self

def cardTitle : FieldDecl := { name := "TITLE", type := .char, length := 10 }

/-- A number, whose text has more digits than the number takes bytes. -/
def cardNumber : FieldDecl := { name := "NUMBER", type := .int4, length := 11, byteLength := 4 }

def cardDay : FieldDecl := { name := "ADDED", type := .date, length := 8 }

/-- The number begins behind the text of the title, the day behind the bytes of the number. -/
theorem offsets_assigned_card : ∃ r, compile (cards [cardTitle, cardNumber, cardDay]) = .ok r ∧ ∃ m t,
    r.messageType ⟨"R", "CARDS", "", "", ""⟩ = .ok m ∧ m.segment? "R/CARDS///:CARD" = some t ∧
    t.fields[1]? = some (cardNumber.placedAt 10) ∧ t.fields[2]? = some (cardDay.placedAt 14) ∧
    InOrder t.fields ∧ Apart t.fields := by
  have hcompiled : compile (cards [cardTitle, cardNumber, cardDay]) =
      .ok ((compile (cards [cardTitle, cardNumber, cardDay])).toOption.get rfl) := rfl
  obtain ⟨m, hm, hfound⟩ := offsets_assigned hcompiled _ List.mem_cons_self
  obtain ⟨t, ht, hlaid⟩ := hfound 1 _ List.mem_cons_self (card_reached _)
  have hseq := hlaid.sequential (by decide)
  have htitle : t.fields[0]? = some (cardTitle.placedAt 0) := hseq.assigned 0 _ rfl
  have hone : front t.fields 1 = 10 := Compile.front_succ htitle
  have hnumber : t.fields[1]? = some (cardNumber.placedAt 10) := by
    rw [hseq.assigned 1 _ rfl, hone, Nat.mod_eq_of_lt (by decide)]
  have htwo : front t.fields 2 = 14 := by
    rw [Compile.front_succ hnumber, hone]
    rfl
  have hday : t.fields[2]? = some (cardDay.placedAt 14) := by
    rw [hseq.assigned 2 _ rfl, htwo, Nat.mod_eq_of_lt (by decide)]
  have hsums : ∀ i < t.fields.length, front t.fields i < 2 ^ 64 := by
    intro i hi
    have hlength : t.fields.length = 3 := hseq.length
    have hle : front t.fields i ≤ front t.fields 2 := Compile.front_mono (by omega)
    omega
  refine ⟨_, hcompiled, m, t, hm, ht, hnumber, hday, hseq.inOrder_iff.mpr hsums, (hseq.apart_iff ?_).mpr ?_⟩
  · have hwords : ∀ f ∈ [cardTitle, cardNumber, cardDay], f.length < 2 ^ 64 ∧ f.byteLength < 2 ^ 64 := by decide
    exact fun f hf => ⟨(hwords f hf).1, (hwords f hf).2⟩
  · intro i f hf _
    exact hsums i (List.getElem?_eq_some_iff.mp hf).1

/-- A text that takes all but one of the bytes that a word can count. -/
def cardText : FieldDecl := { name := "TEXT", type := .string, length := 2 ^ 64 - 1 }

def cardMark : FieldDecl := { name := "MARK", type := .char, length := 1 }

/-- The number has 2^64 bytes before it, and is given the first bytes of the text. -/
theorem offsets_wrapped : ∃ r, compile (cards [cardText, cardMark, cardNumber]) = .ok r ∧
    ∃ m ∈ r.messageTypes, ∃ t ∈ m.segments,
    t.fields = [cardText.placedAt 0, cardMark.placedAt (2 ^ 64 - 1), cardNumber.placedAt 0] ∧ front t.fields 2 = 2 ^ 64 ∧
    ¬ InOrder t.fields ∧ ¬ Apart t.fields := by
  refine ⟨(compile (cards [cardText, cardMark, cardNumber])).toOption.get rfl, rfl, _, List.mem_cons_self, _,
    List.mem_cons_self, rfl, rfl, by decide, ?_⟩
  intro hapart
  have hshared := (List.pairwise_cons.mp hapart).1 (cardNumber.placedAt 0) (List.mem_cons_of_mem _ List.mem_cons_self) 0
  exact hshared ⟨⟨by decide, by decide⟩, ⟨by decide, by decide⟩⟩

end Registry

end DocWire
