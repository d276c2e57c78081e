/-
  DocWire.Proofs.Xml.Prefixes — the prefix of a message.

  A message type or function may have any name at all, and its message needs a prefix: one that XML allows, that starts
  with none of the reserved letters, and that is not the prefix of a message kind (`LegalPrefix`). The rule is that a
  name which is such a prefix is taken as it is; every other one has its slashes escaped and whatever else no prefix may
  hold replaced, and is put behind an underscore where that alone does not do. One underscore always does: it may stand
  in front of everything, and with it no name starts with a reserved letter or is that of a kind.

  Whether a name starts with the reserved letters is asked of its first three bytes, which must neither reach past its
  end nor end inside a character (`firstBytes?`). They do not: they are cut from what is left when every character that
  takes more than one byte was replaced (`messagePrefix?_eq`).

  - `messagePrefix_legal`, `messagePrefix_eq_self_iff`: what is made of a name is a legal prefix, and is the name itself
    exactly where that is one.
  - `prefixes_distinct`: in a document, a list or a parameter set that is written, names with the prefix of the message
    are told apart from those of its kind and from reserved ones.
-/

import DocWire.Proofs.Xml.Document
import DocWire.Proofs.Xml.Parameters

namespace DocWire

/-- The three letters that are reserved, in any case, and what may be behind them. -/
def StartsXml (s : List Char) : Prop :=
  ∃ x m l rest, s = x :: m :: l :: rest ∧ x ∈ ['x', 'X'] ∧ m ∈ ['m', 'M'] ∧ l ∈ ['l', 'L']

/-- A prefix that a message may have. -/
structure LegalPrefix (p : String) : Prop where
  begins : ∃ c rest, p.toList = c :: rest ∧ (c.isAlpha = true ∨ c = '_')
  continues : ∀ c ∈ p.toList, c.isAlphanum = true ∨ c ∈ ['_', '.', '-']
  unreserved : ¬ StartsXml p.toList
  untaken : p ≠ "idoc" ∧ p ≠ "rfc"

/-! ## Characters -/

theorem isAsciiLetter_eq (c : Char) : isAsciiLetter c = c.isAlpha := by
  have hlower : (decide ('a' ≤ c) && decide (c ≤ 'z')) = c.isLower := rfl
  have hupper : (decide ('A' ≤ c) && decide (c ≤ 'Z')) = c.isUpper := (Bool.decide_and _ _).symm
  rw [isAsciiLetter, hlower, hupper]
  exact Bool.or_comm _ _

theorem isPrefixStart_iff {c : Char} : isPrefixStart c = true ↔ c.isAlpha = true ∨ c = '_' := by
  simp [isPrefixStart, isAsciiLetter_eq]

theorem isPrefixChar_iff {c : Char} : isPrefixChar c = true ↔ c.isAlphanum = true ∨ c ∈ ['_', '.', '-'] := by
  have hdigit : Number.isDigit c = c.isDigit := rfl
  simp [isPrefixChar, isAsciiLetter_eq, hdigit, Char.isAlphanum, or_assoc]

theorem toNat_toLower (c : Char) : c.toLower.toNat = if 65 ≤ c.toNat ∧ c.toNat ≤ 90 then c.toNat + 32 else c.toNat := by
  have hrange : (c.val ≥ 'A'.val ∧ c.val ≤ 'Z'.val) ↔ 65 ≤ c.toNat ∧ c.toNat ≤ 90 := Iff.rfl
  unfold Char.toLower
  by_cases h : 65 ≤ c.toNat ∧ c.toNat ≤ 90
  · rw [dif_pos (hrange.mpr h), if_pos h]
    have hsum : (c.val + ('a'.val - 'A'.val)).toNat = (c.toNat + 32) % 2 ^ 32 := UInt32.toNat_add _ _
    show (c.val + ('a'.val - 'A'.val)).toNat = _
    omega
  · rw [dif_neg (fun hc => h (hrange.mp hc)), if_neg h]

/-- A character is a given small letter in small letters if it is that letter or the capital one. -/
theorem toLower_eq_iff {c small capital : Char} (hsmall : 97 ≤ small.toNat) (hpair : small.toNat = capital.toNat + 32)
    (hcapital : 65 ≤ capital.toNat ∧ capital.toNat ≤ 90) : c.toLower = small ↔ c ∈ [small, capital] := by
  have hlower := toNat_toLower c
  rw [List.mem_cons, List.mem_singleton, ← Char.toNat_inj, ← Char.toNat_inj, ← Char.toNat_inj]
  split at hlower <;> omega

theorem startsReserved_iff {s : List Char} : startsReserved s = true ↔ StartsXml s := by
  have hx (c : Char) : c.toLower = 'x' ↔ c ∈ ['x', 'X'] := toLower_eq_iff (by decide) (by decide) (by decide)
  have hm (c : Char) : c.toLower = 'm' ↔ c ∈ ['m', 'M'] := toLower_eq_iff (by decide) (by decide) (by decide)
  have hl (c : Char) : c.toLower = 'l' ↔ c ∈ ['l', 'L'] := toLower_eq_iff (by decide) (by decide) (by decide)
  rw [startsReserved, beq_iff_eq]
  constructor
  · intro h
    rcases s with _ | ⟨a, _ | ⟨b, _ | ⟨c, rest⟩⟩⟩
    · cases h
    · simp at h
    · simp at h
    · simp only [List.take_succ_cons, List.take_zero, List.map_cons, List.map_nil, List.cons.injEq, and_true] at h
      exact ⟨a, b, c, rest, rfl, (hx a).mp h.1, (hm b).mp h.2.1, (hl c).mp h.2.2⟩
  · rintro ⟨a, b, c, rest, rfl, ha, hb, hc⟩
    simp only [List.take_succ_cons, List.take_zero, List.map_cons, List.map_nil, (hx a).mpr ha, (hm b).mpr hb,
      (hl c).mpr hc]

/-- The reserved letters do not reach past a colon. -/
theorem StartsXml.of_append {s rest : List Char} (h : StartsXml (s ++ ':' :: rest)) : StartsXml s := by
  obtain ⟨x, m, l, behind, he, hx, hm, hl⟩ := h
  have hcolon : ':' ∉ ['x', 'X'] ∧ ':' ∉ ['m', 'M'] ∧ ':' ∉ ['l', 'L'] := by decide
  rcases s with _ | ⟨a, _ | ⟨b, _ | ⟨c, s⟩⟩⟩
  · simp only [List.nil_append, List.cons.injEq] at he
    exact absurd (he.1 ▸ hx) hcolon.1
  · simp only [List.cons_append, List.nil_append, List.cons.injEq] at he
    exact absurd (he.2.1 ▸ hm) hcolon.2.1
  · simp only [List.cons_append, List.nil_append, List.cons.injEq] at he
    exact absurd (he.2.2.1 ▸ hl) hcolon.2.2
  · simp only [List.cons_append, List.cons.injEq] at he
    obtain ⟨rfl, rfl, rfl, -⟩ := he
    exact ⟨a, b, c, s, rfl, hx, hm, hl⟩

/-! ## The first bytes -/

namespace Text

/-- The characters in the first bytes of a text, unless it has fewer or they end inside a character. -/
def firstBytes? : Nat → List Char → Option (List Char)
  | 0, _ => some []
  | _ + 1, [] => none
  | n + 1, c :: rest =>
    if c.utf8Size ≤ n + 1 then (firstBytes? (n + 1 - c.utf8Size) rest).map (c :: ·) else none

def byteLength (s : List Char) : Nat := (String.ofList s).utf8ByteSize

@[simp] theorem byteLength_nil : byteLength [] = 0 := rfl

@[simp] theorem byteLength_cons (c : Char) (s : List Char) : byteLength (c :: s) = c.utf8Size + byteLength s := by
  have hsplit : String.ofList (c :: s) = String.singleton c ++ String.ofList s := by
    rw [← String.toList_inj]
    simp
  rw [byteLength, hsplit, String.utf8ByteSize_append, String.utf8ByteSize_singleton]
  rfl

theorem byteLength_eq_zero {s : List Char} : byteLength s = 0 ↔ s = [] := by
  cases s with
  | nil => simp
  | cons c rest =>
    have := c.utf8Size_pos
    simp only [byteLength_cons, List.cons_ne_nil, iff_false]
    omega

/-- The first bytes of a text are those of a text that it starts with. -/
theorem firstBytes?_eq_some {s : List Char} : ∀ {n : Nat} {start : List Char},
    firstBytes? n s = some start ↔ start <+: s ∧ byteLength start = n := by
  induction s with
  | nil =>
    intro n start
    cases n with
    | zero =>
      simp only [firstBytes?, Option.some.injEq, List.prefix_nil, byteLength_eq_zero, and_self]
      exact eq_comm
    | succ n =>
      simp only [firstBytes?, List.prefix_nil, reduceCtorEq, false_iff, not_and]
      rintro rfl
      simp
  | cons c rest ih =>
    intro n start
    cases n with
    | zero =>
      simp only [firstBytes?, Option.some.injEq, byteLength_eq_zero]
      constructor
      · rintro rfl
        refine ⟨?_, rfl⟩
        exact List.nil_prefix
      · exact fun h => h.2.symm
    | succ n =>
      cases start with
      | nil => simp [firstBytes?]
      | cons d start =>
        rw [firstBytes?, List.cons_prefix_cons, byteLength_cons]
        split
        · rename_i hfits
          simp only [Option.map_eq_some_iff, List.cons.injEq, ih]
          constructor
          · rintro ⟨_, ⟨hstart, hlength⟩, rfl, rfl⟩
            exact ⟨⟨rfl, hstart⟩, by omega⟩
          · rintro ⟨⟨rfl, hstart⟩, hlength⟩
            exact ⟨start, ⟨hstart, by omega⟩, rfl, rfl⟩
        · rename_i hfits
          simp only [reduceCtorEq, false_iff, not_and]
          rintro ⟨rfl, -⟩
          omega

theorem byteLength_eq_length {s : List Char} (h : ∀ c ∈ s, c.utf8Size = 1) : byteLength s = s.length := by
  induction s with
  | nil => rfl
  | cons c rest ih =>
    rw [byteLength_cons, h c List.mem_cons_self, ih fun d hd => h d (List.mem_cons_of_mem _ hd), List.length_cons, Nat.add_comm]

end Text

open Text (byteLength byteLength_eq_length firstBytes? firstBytes?_eq_some)

/-- Whether the first three bytes of a text, if it has that many, are the reserved letters. -/
def startsReserved? (s : List Char) : Option Bool :=
  if 3 ≤ byteLength s then (firstBytes? 3 s).map fun start => start.map Char.toLower == ['x', 'm', 'l']
  else some false

theorem startsReserved?_eq {s : List Char} (h : ∀ c ∈ s, c.utf8Size = 1) : startsReserved? s = some (startsReserved s) := by
  rw [startsReserved?, byteLength_eq_length h]
  by_cases hlong : 3 ≤ s.length
  · have htake : byteLength (s.take 3) = 3 := by
      rw [byteLength_eq_length fun c hc => h c (List.mem_of_mem_take hc), List.length_take]
      omega
    have hstart : s.take 3 <+: s := List.take_prefix 3 s
    rw [if_pos hlong, firstBytes?_eq_some.mpr ⟨hstart, htake⟩]
    rfl
  · have hshort : startsReserved s = false := by
      rw [startsReserved, beq_eq_false_iff_ne]
      intro he
      have := congrArg List.length he
      simp at this
      omega
    rw [if_neg hlong, hshort]

/-- Three bytes of a text need not end between its characters. -/
example : startsReserved? ['x', 'é', 'l'] = some false ∧ startsReserved? ['x', '語'] = none := by decide

/-! ## Prefixes -/

/-- The prefix of a message, as it is made where a text is cut at a byte. -/
def messagePrefix? (name : String) : Option String :=
  (startsReserved? (prefixChars name)).map fun reserved =>
    String.ofList (if needsUnderscore reserved (prefixChars name) then '_' :: prefixChars name else prefixChars name)

theorem utf8Size_of_isPrefixChar {c : Char} (h : isPrefixChar c = true) : c.utf8Size = 1 := by
  rw [Char.utf8Size_eq_one_iff]
  show c.toNat ≤ 127
  have hlast : 'z'.val.toNat = 122 ∧ 'Z'.val.toNat = 90 ∧ '9'.val.toNat = 57 := ⟨rfl, rfl, rfl⟩
  have hchar : c.val.toNat = c.toNat := rfl
  simp only [isPrefixChar, isAsciiLetter, Number.isDigit, Bool.or_eq_true, Bool.and_eq_true, decide_eq_true_eq,
    beq_iff_eq, Char.le_def, UInt32.le_iff_toNat_le] at h
  rcases h with (((hletter | hdigit) | rfl) | rfl) | rfl
  · omega
  · omega
  all_goals decide

/-- The three bytes are always there, and end between two characters. -/
theorem messagePrefix?_eq (name : String) : messagePrefix? name = some (messagePrefix name) := by
  rw [messagePrefix?, startsReserved?_eq fun c hc => utf8Size_of_isPrefixChar (isPrefixChar_of_mem c hc)]
  rfl

/-- Characters that a prefix may hold are one if no underscore has to stand in front. -/
theorem legalPrefix_iff {p : String} (h : ∀ c ∈ p.toList, isPrefixChar c = true) :
    LegalPrefix p ↔ needsUnderscore (startsReserved p.toList) p.toList = false := by
  have htext (q : String) : (p.toList == q.toList) = false ↔ p ≠ q := by
    rw [beq_eq_false_iff_ne, ne_eq, String.toList_inj]
  have hreserved : startsReserved p.toList = false ↔ ¬ StartsXml p.toList := by
    rw [← startsReserved_iff, Bool.not_eq_true]
  rw [needsUnderscore, Bool.or_eq_false_iff, Bool.or_eq_false_iff, Bool.or_eq_false_iff, htext, htext, hreserved]
  constructor
  · rintro ⟨⟨c, rest, hp, hc⟩, -, hunreserved, huntaken⟩
    refine ⟨⟨?_, hunreserved⟩, huntaken⟩
    rw [hp, startsWell, isPrefixStart_iff.mpr hc, Bool.not_true]
  · rintro ⟨⟨hstart, hunreserved⟩, huntaken⟩
    refine ⟨?_, fun c hc => isPrefixChar_iff.mp (h c hc), hunreserved, huntaken⟩
    cases hp : p.toList with
    | nil => simp [hp, startsWell] at hstart
    | cons c rest => exact ⟨c, rest, rfl, isPrefixStart_iff.mp (by simpa [hp, startsWell] using hstart)⟩

theorem messagePrefix_legal (name : String) : LegalPrefix (messagePrefix name) := by
  have hchars : ∀ c ∈ prefixChars name, isPrefixChar c = true := isPrefixChar_of_mem
  have hunderscore : ∀ c ∈ '_' :: prefixChars name, isPrefixChar c = true := List.forall_mem_cons.mpr ⟨rfl, hchars⟩
  have htext := messagePrefix_toList name
  split at htext
  · -- what begins with an underscore begins with no reserved letter, and is the prefix of no kind
    exact (legalPrefix_iff (by rwa [htext])).mpr (by rw [htext]; rfl)
  · rename_i hgood
    exact (legalPrefix_iff (by rwa [htext])).mpr (by rwa [htext, ← Bool.not_eq_true])

/-- A legal prefix has no slash to escape and nothing to replace. -/
theorem LegalPrefix.prefixChars_eq {name : String} (h : LegalPrefix name) : prefixChars name = name.toList := by
  have hchars : ∀ c ∈ name.toList, isPrefixChar c = true := fun c hc => isPrefixChar_iff.mpr (h.continues c hc)
  have hslash : ∀ c ∈ name.toList, c ≠ '/' := by
    rintro _ hm rfl
    cases hchars _ hm
  have hescaped : Name.escapeChars name.toList = name.toList := by
    rw [Name.escapeChars, List.flatMap_congr fun c hc => if_neg (hslash c hc), List.flatMap_singleton']
  rw [prefixChars, hescaped]
  exact (List.map_congr_left fun c hc => if_pos (hchars c hc)).trans (List.map_id _)

theorem messagePrefix_eq_self_iff {name : String} : messagePrefix name = name ↔ LegalPrefix name := by
  constructor
  · intro h
    exact h ▸ messagePrefix_legal name
  · intro h
    have hchars : ∀ c ∈ name.toList, isPrefixChar c = true := fun c hc => isPrefixChar_iff.mpr (h.continues c hc)
    rw [← String.toList_inj, messagePrefix_toList, h.prefixChars_eq, (legalPrefix_iff hchars).mp h]
    rfl

theorem LegalPrefix.colonless {p : String} (h : LegalPrefix p) : ':' ∉ p.toList := fun hm => by
  cases isPrefixChar_iff.mpr (h.continues _ hm)

/-! ## Names in a message -/

namespace Markup.Written

mutual

/-- The names of an element and of those below it. -/
def names : Written → List String
  | .mk name _ children => name :: namesOfAll children

def namesOfAll : List Written → List String
  | [] => []
  | e :: rest => names e ++ namesOfAll rest

end

@[simp] theorem namesOfAll_append (ws more : List Written) :
    namesOfAll (ws ++ more) = namesOfAll ws ++ namesOfAll more := by
  induction ws with
  | nil => rfl
  | cons e rest ih => rw [List.cons_append, namesOfAll, namesOfAll, ih, List.append_assoc]

end Markup.Written

namespace Xml

open Markup (Written splitPrefix)
open Markup.Written (names namesOfAll namesOfAll_append)

/-- The names that elements below the one of a message have: those that only hold others have no prefix. -/
inductive NameBelow (pre : String) : String → Prop
  | holder (name : String) : name ∈ ["rootSegment", "segmentChildren", "document", "row"] → NameBelow pre name
  | own (name : String) : NameBelow pre (pre ++ ":" ++ Name.escape name)

/-- A name with neither the prefix of a message kind nor the letters that are reserved. -/
structure Apart (name : String) : Prop where
  untaken : (splitPrefix name).1 ∉ [some "idoc", some "rfc"]
  unreserved : ¬ StartsXml name.toList

/-- In the element of a message its prefix is declared under a name of its own, and is that of the names below where
they have one. -/
def ToldApart (kind pre : String) (e : Written) : Prop :=
  ∃ top kindUri uri attributes children,
    e = .mk top (("xmlns:" ++ kind, kindUri) :: ("xmlns:" ++ pre, uri) :: attributes) children ∧
      (splitPrefix top).1 = some kind ∧
      "xmlns:" ++ pre ∉ ["xmlns:idoc", "xmlns:rfc", "xmlns:xml", "xmlns:xmlns"] ∧
      ∀ n ∈ namesOfAll children, NameBelow pre n ∧ Apart n

def AllBelow (pre : String) (ws : List Written) : Prop := ∀ n ∈ namesOfAll ws, NameBelow pre n

variable {pre docPath : String}

theorem allBelow_nil : AllBelow pre [] := fun _ hn => by cases hn

theorem AllBelow.append {ws more : List Written} (h : AllBelow pre ws) (hmore : AllBelow pre more) :
    AllBelow pre (ws ++ more) := by
  intro n hn
  rw [namesOfAll_append] at hn
  exact (List.mem_append.mp hn).elim (h n) (hmore n)

theorem AllBelow.cons {name : String} {attributes : Attributes} {children rest : List Written}
    (hname : NameBelow pre name) (h : AllBelow pre children) (hrest : AllBelow pre rest) :
    AllBelow pre (.mk name attributes children :: rest) := by
  intro n hn
  rw [namesOfAll, names] at hn
  rcases List.mem_append.mp hn with hn | hn
  · rcases List.mem_cons.mp hn with rfl | hn
    · exact hname
    · exact h n hn
  · exact hrest n hn

theorem AllBelow.element {name : String} {attributes : Attributes} {children : List Written} (hname : NameBelow pre name)
    (h : AllBelow pre children) : AllBelow pre [.mk name attributes children] :=
  .cons hname h allBelow_nil

theorem AllBelow.wrapped {path : String} {below : List Written} (h : AllBelow pre below) :
    AllBelow pre (wrapped path below) := by
  rw [Xml.wrapped]
  split
  · exact allBelow_nil
  · exact .element (.holder _ (by decide)) h

/-! ### Documents -/

theorem encodeSegments_names : ∀ (ts : List (Tree Segment)) {path : String} {before : List String} {ws : List Written},
    encodeSegments pre docPath path before ts = .ok ws → AllBelow pre ws
  | [], _, _, _, h => by
    cases h
    exact allBelow_nil
  | .node own children :: rest, path, before, ws, h => by
    obtain ⟨e, es, he, hes, rfl⟩ := encodeSegments_cons h
    obtain ⟨below, hbelow, -, rfl⟩ := encodeSegment_ok he
    exact .cons (.own _) (encodeSegments_names children hbelow).wrapped (encodeSegments_names rest hes)

theorem encodeDocumentAs_names {name path : String} {attributes : Attributes} {d : Document} {w : Written}
    (h : encodeDocumentAs name attributes path d = .ok w) :
    ∃ children, w = .mk name (attributes ++ headerAttributes d) children ∧
      AllBelow (messagePrefix d.key.basicType) children := by
  obtain ⟨root, hroot, rfl⟩ := encodeDocumentAs_ok h
  refine ⟨[root], rfl, ?_⟩
  cases htree : d.tree with
  | node own children =>
    rw [htree] at hroot
    obtain ⟨below, hbelow, rfl⟩ := encodeRoot_ok hroot
    exact .element (.holder _ (by decide)) (encodeSegments_names children hbelow).wrapped

theorem encodeListed_names : ∀ (ds : List Document) {i : Nat} {ws : List Written},
    (∀ d ∈ ds, messagePrefix d.key.basicType = pre) → encodeListed i ds = .ok ws → AllBelow pre ws
  | [], _, _, _, h => by
    cases h
    exact allBelow_nil
  | d :: rest, i, ws, hds, h => by
    obtain ⟨w, es, hw, hes, rfl⟩ := encodeListed_cons h
    obtain ⟨children, rfl, hbelow⟩ := encodeDocumentAs_names hw
    rw [hds d List.mem_cons_self] at hbelow
    exact .cons (.holder _ (by decide)) hbelow
      (encodeListed_names rest (fun d hd => hds d (List.mem_cons_of_mem _ hd)) hes)

/-! ### Parameter sets -/

mutual

theorem encodeRecordAs_names : ∀ (r : Record) {name path : String} {attributes : Attributes} {w : Written},
    encodeRecordAs pre name attributes path r = .ok w →
    ∃ children, w = .mk name (attributes ++ r.entries.map attributeOf) children ∧ AllBelow pre children
  | .mk f shape slots, name, path, attributes, w, h => by
    obtain ⟨ws, hws, -, rfl⟩ := encodeRecordAs_ok h
    exact ⟨ws, rfl, encodeSlots_names slots hws⟩

theorem encodeSlots_names : ∀ (slots : List (Slot Record)) {path : String} {names : List String} {ws : List Written},
    encodeSlots pre path names slots = .ok ws → AllBelow pre ws
  | [], _, _, _, h => by
    cases h
    exact allBelow_nil
  | slot :: rest, path, names, ws, h => by
    obtain ⟨es, more, hes, hmore, rfl⟩ := encodeSlots_cons h
    exact (encodeSlot_names slot hes).append (encodeSlots_names rest hmore)

theorem encodeSlot_names : ∀ (slot : Slot Record) {path name : String} {ws : List Written},
    encodeSlot pre path (Name.escape name) slot = .ok ws → AllBelow pre ws
  | .absent, _, _, _, h => by
    cases h
    exact allBelow_nil
  | .value _, _, _, _, h => by
    cases h
    exact allBelow_nil
  | .nested r, path, name, ws, h => by
    obtain ⟨w, hw, rfl⟩ := Outcome.map_eq_ok.mp h
    obtain ⟨children, rfl, hbelow⟩ := encodeRecordAs_names r hw
    exact .element (.own _) hbelow
  | .table rows, path, name, ws, h => by
    obtain ⟨es, hes, rfl⟩ := Outcome.map_eq_ok.mp h
    exact .element (.own _) (encodeRows_names rows hes)

theorem encodeRows_names : ∀ (rows : List Record) {path : String} {i : Nat} {ws : List Written},
    encodeRows pre path i rows = .ok ws → AllBelow pre ws
  | [], _, _, _, h => by
    cases h
    exact allBelow_nil
  | r :: rest, path, i, ws, h => by
    obtain ⟨own, w, more, hw, hmore, rfl⟩ := encodeRows_cons h
    obtain ⟨children, rfl, hbelow⟩ := encodeRecordAs_names r hw
    exact .cons (.holder _ (by decide)) hbelow (encodeRows_names rest hmore)

end

/-! ### What is told apart -/

theorem NameBelow.apart {name : String} (hp : LegalPrefix pre) (h : NameBelow pre name) : Apart name := by
  cases h with
  | holder _ hm =>
    have hall : ∀ n ∈ ["rootSegment", "segmentChildren", "document", "row"],
        (splitPrefix n).1 ∉ [some "idoc", some "rfc"] ∧ startsReserved n.toList = false := by decide
    obtain ⟨huntaken, hunreserved⟩ := hall name hm
    exact ⟨huntaken, fun hs => by simp [startsReserved_iff.mpr hs] at hunreserved⟩
  | own name =>
    refine ⟨?_, fun hs => hp.unreserved ?_⟩
    · rw [Markup.splitPrefix_prefixed hp.colonless]
      simp [hp.untaken]
    · rw [String.toList_append, String.toList_append, List.append_assoc] at hs
      exact hs.of_append

theorem toldApart {kind top kindUri uri : String} {attributes : Attributes} {children : List Written}
    (hp : LegalPrefix pre) (htop : (splitPrefix top).1 = some kind) (h : AllBelow pre children) :
    ToldApart kind pre (.mk top (("xmlns:" ++ kind, kindUri) :: ("xmlns:" ++ pre, uri) :: attributes) children) := by
  have hne : pre ∉ ["idoc", "rfc", "xml", "xmlns"] := by
    simp only [List.mem_cons, List.not_mem_nil, or_false, not_or]
    have hreserved (q : String) (hq : startsReserved q.toList = true) : pre ≠ q := by
      rintro rfl
      exact hp.unreserved (startsReserved_iff.mp hq)
    exact ⟨hp.untaken.1, hp.untaken.2, hreserved "xml" (by decide), hreserved "xmlns" (by decide)⟩
  refine ⟨top, kindUri, uri, attributes, children, rfl, htop, fun hm => hne ?_, fun n hn => ⟨h n hn, (h n hn).apart hp⟩⟩
  obtain ⟨q, hq, he⟩ := List.mem_map.mp (show "xmlns:" ++ pre ∈ ["idoc", "rfc", "xml", "xmlns"].map ("xmlns:" ++ ·) from hm)
  rwa [← (String.append_right_inj _).mp he]

/-- A message has a prefix that XML allows and that is told apart from all it must differ from, whatever its type or
function is named. The prefix is the name where that is such a prefix, and only there; three bytes can be cut from every
name that it is made from. Whatever is written, names with the prefix of the message then have neither that of a kind of
message nor the reserved letters. -/
theorem prefixes_distinct (name : String) :
    LegalPrefix (messagePrefix name) ∧
    (messagePrefix name = name ↔ LegalPrefix name) ∧
    messagePrefix? name = some (messagePrefix name) ∧
    (∀ (o : Options) (d : Document) (e : Written), d.key.basicType = name → encodeDocument o d = .ok e →
      ToldApart "idoc" (messagePrefix name) e) ∧
    (∀ (schema : Definition) (reg : Registry) (o : Options) (b : Batch) (e : Written),
      Registry.compile schema = .ok reg → Batch.Reach reg b → b.key.basicType = name → encodeBatch o b = .ok e →
      ToldApart "idoc" (messagePrefix name) e) ∧
    (∀ (o : Options) (r : Record) (e : Written), r.function.name = name → encodeRecord o r = .ok e →
      ToldApart "rfc" (messagePrefix name) e) := by
  have hlegal := messagePrefix_legal name
  refine ⟨hlegal, messagePrefix_eq_self_iff, messagePrefix?_eq name, ?_, ?_, ?_⟩
  · rintro o d e rfl he
    obtain ⟨children, rfl, hbelow⟩ := encodeDocumentAs_names he
    exact toldApart hlegal (by decide) hbelow
  · rintro schema reg o b e hr hb rfl he
    obtain ⟨ws, hws, rfl⟩ := Outcome.map_eq_ok.mp he
    refine toldApart hlegal (by decide) (encodeListed_names b.documents (fun d hd => ?_) hws)
    -- the prefix below is each document's own, and all of them are of the type of the list
    rw [Document.key, ((hb.documents hr).2 d hd).1]
    rfl
  · rintro o r e rfl he
    obtain ⟨children, rfl, hbelow⟩ := encodeRecordAs_names r he
    have htop : splitPrefix ("rfc" ++ ":" ++ r.name) = (some "rfc", r.name) :=
      Markup.splitPrefix_prefixed (by decide) r.name
    exact toldApart hlegal (congrArg Prod.fst htop) hbelow

/-- A function with the name of a prefix that is taken, and a structure in its request. -/
def takenCall : Definition :=
  { structures := [{ name := "ADDRESS", members := [.field { name := "CITY", type := .char, length := 6 }] }]
    functions := [{ name := "rfc", imports := [.nested "XMLADDRESS" "" "ADDRESS"] }] }

def takenFunction : Function :=
  (((Registry.compile takenCall).toOption.get rfl).function "rfc").toOption.get rfl

def takenRequest : Record := (Record.request takenFunction).editBelow [] (.makeNested "XMLADDRESS")

theorem prefixes_distinct_taken : messagePrefix "rfc" = "_rfc" ∧
    ∃ e, encodeRecord {} takenRequest = .ok e ∧ names e = ["rfc:Request", "_rfc:XMLADDRESS"] ∧ ToldApart "rfc" "_rfc" e := by
  have htaken : messagePrefix "rfc" = "_rfc" := by decide
  obtain ⟨e, he⟩ := Outcome.exists_ok (x := encodeRecord {} takenRequest) (by decide +kernel)
  have hnames : ((encodeRecord {} takenRequest).map names).toOption = some ["rfc:Request", "_rfc:XMLADDRESS"] := by
    decide +kernel
  rw [he] at hnames
  obtain ⟨-, -, -, -, -, hrecord⟩ := prefixes_distinct "rfc"
  exact ⟨htaken, e, he, Option.some.inj hnames, htaken ▸ hrecord {} takenRequest e (by decide +kernel) he⟩

end Xml

end DocWire
