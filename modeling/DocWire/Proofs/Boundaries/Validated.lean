/-
  DocWire.Proofs.Boundaries.Validated — reports are exact, and what has an empty one can be written.

  The report on a document has one violation for every value that is unfit for its field and for every child type that
  a segment lacks, and no others; the report on a parameter set one for every unfit value, at any depth
  (`reports_exact`). Segments and records are told in pre-order, each once; in each the values come in the order of
  declaration, and those of a segment before its child types.

  A value without a wire string is unfit. So where the report is empty every value has one, and then both boundaries
  write the message, as they do whatever was accepted.
-/

import DocWire.Proofs.Boundaries.PassedOn
import DocWire.Proofs.Parameters.Violations

namespace DocWire.Boundaries

/-- The values of a segment or record, told apart and in the order of declaration. -/
def InOrder (entries : List (FieldDecl × Value)) (declared : List String) : Prop :=
  (entries.map (·.1.name)).Sublist declared ∧ (entries.map (·.1.name)).Nodup

/-- The report on a document has what is to be said of it, once and in order. -/
structure DocumentReported (d : Document) : Prop where
  /-- Every segment is visited once, in the pre-order of the tree. -/
  visited : d.order = d.idTree.preorder ∧ d.order.Perm (List.range d.segmentCount)
  /-- In a segment no field and no child type comes twice. -/
  apart : ∀ id s, d.segment? id = some s →
    InOrder s.entries (s.type.fields.map (·.name)) ∧ (s.type.children.map (·.segmentType)).Nodup
  report : d.validate = d.order.flatMap fun id =>
    (((d.segment id).entries.filter Unfit).map fun e => ⟨d.pathTo id, unfitCause e⟩) ++
      ((d.segment id).type.children.filter (d.Lacks id)).map fun slot => d.lackingIn id slot
  written : d.validate = [] → (∀ o, ∃ text, Xml.documentText o d = .ok text) ∧ ∃ n, Native.ofDocument d = .ok n

/-- The report on a parameter set has what is to be said of it, once and in order. -/
structure RecordReported (r : Record) : Prop where
  /-- Every record within is listed in pre-order, with the steps by which it is looked up. -/
  visited : (r.placed []).map (·.2) = r.preorder ∧ ∀ p ∈ r.placed [], r.atPath p.1 = .ok p.2
  /-- In a record no field comes twice. -/
  apart : ∀ p ∈ r.placed [], InOrder p.2.entries (p.2.shape.members.map Member.name)
  report : r.validate = (r.placed []).flatMap fun p =>
    (p.2.entries.filter Unfit).map fun e => ⟨Record.pathBehind ("/" ++ r.name) p.1, unfitCause e⟩
  written : r.validate = [] → (∀ o, ∃ text, Xml.recordText o r = .ok text) ∧ ∃ n, Native.ofRecord r = .ok n

theorem encodes_of_filter {entries : List (FieldDecl × Value)} (h : entries.filter Unfit = []) : ∀ e ∈ entries, Encodes e := by
  intro e he
  have hfit := List.filter_eq_nil_iff.mp h e he
  exact encodes_of_not_unfit (by simpa using hfit)

/-- With an empty report every value of a document has a wire string. -/
theorem encodable_of_validate {d : Document} (hd : d.Sound) (h : d.validate = []) : d.Encodable := by
  intro i s hs
  rw [hd.validate_eq, List.flatMap_eq_nil_iff] at h
  have hvisited : i ∈ d.order := hd.order_perm.mem_iff.mpr (List.mem_range.mpr (Document.segment?_lt hs))
  have hnone := (List.append_eq_nil_iff.mp (h i hvisited)).1
  rw [List.map_eq_nil_iff, Document.segment_eq hs] at hnone
  exact encodes_of_filter hnone

theorem documentReported {d : Document} (hm : d.schema.Resolved) (hd : d.Sound) : DocumentReported d where
  visited := ⟨hd.order_eq, hd.order_perm⟩
  apart id s hs := by
    have hnames := hm.fields s.type (hd.types id s hs)
    have hsub := s.entries_sublist.map FieldDecl.name
    rw [List.map_map] at hsub
    exact ⟨⟨hsub, Segment.entries_nodup hnames⟩, hm.children s.type (hd.types id s hs)⟩
  report := hd.validate_eq
  written h := by
    obtain ⟨htext, hnative, -⟩ := documentPassedOn hm hd (encodable_of_validate hd h)
    exact ⟨htext, hnative⟩

theorem encodable_of_record_validate {r : Record} (h : r.validate = []) : r.Encodable := by
  intro x hx
  rw [← Record.placed_records r []] at hx
  obtain ⟨p, hp, rfl⟩ := List.mem_map.mp hx
  rw [Record.validate_eq, List.flatMap_eq_nil_iff] at h
  have hnone := h p hp
  rw [Record.faultsAt, List.map_eq_nil_iff] at hnone
  exact encodes_of_filter hnone

theorem recordReported {r : Record} (hd : r.shape.Distinct) (hr : r.Sound) : RecordReported r where
  visited := by
    refine ⟨Record.placed_records r [], ?_⟩
    intro p hp
    obtain ⟨more, hsteps, hfound⟩ := Record.atPath_placed r [] hr hd hp
    rw [hsteps]
    exact hfound
  apart p hp := by
    have hwithin : p.2 ∈ r.preorder := Record.placed_records r [] ▸ List.mem_map_of_mem hp
    have hsub := Record.entries_sublist p.2
    exact ⟨hsub, hsub.nodup (hr.every_preorder hd hwithin).members⟩
  report := r.validate_eq
  written h := by
    obtain ⟨htext, hnative, -⟩ := recordPassedOn hd hr (encodable_of_record_validate h)
    exact ⟨htext, hnative⟩

variable {schema : Definition} {reg : Registry}

/-- Reports are exact, for every document that comes about under a compiled registry, and for every parameter set with
all records within. What has an empty report is written at both boundaries. -/
theorem reports_exact (hr : Registry.compile schema = .ok reg) :
    (∀ d, Document.Reach reg d → DocumentReported d) ∧
    ∀ r, Record.Arises reg r → ∀ x ∈ r.preorder, RecordReported x := by
  constructor
  · intro d h
    obtain ⟨hm, hsound⟩ := h.sound hr
    exact documentReported (Registry.resolved hr hm) hsound
  · intro r h x hx
    obtain ⟨-, -, hsound⟩ := h.sound
    exact recordReported (hsound.every_preorder (h.distinct hr) hx) (hsound.preorder hx).2

/-- Orders whose head has a status, and calls with a list of flags. -/
def checkedOrders : Definition :=
  { messageTypes :=
      [{ key := ⟨"R", "ORDER", "", "", ""⟩
         root := [{ segmentType := "HEAD", maxOccurrence := 2, mandatory := true }, { segmentType := "SUM", minOccurrence := 1 }]
         segments :=
           [{ segmentType := "HEAD",
              fields := [{ name := "STATUS", type := .char, length := 2, values := ["OK", "KO"] },
                { name := "ITEMS", type := .int1 }] },
            { segmentType := "SUM" }] }]
    structures := [{ name := "FLAG", members := [.field { name := "ON", type := .char, values := ["X"] }] }]
    functions := [{ name := "CHECK", tables := [.table "FLAGS" "" "FLAG"] }] }

def checked : Registry := (Registry.compile checkedOrders).toOption.get rfl

theorem checked_compiled : Registry.compile checkedOrders = .ok checked := rfl

def checkedSchema : MessageType := (checked.messageTypes[0]?).get rfl

/-- An order with an unknown status, more items than can be represented, and no sum. -/
def doubtfulOrder : Document :=
  [.addChild 0 "HEAD", .addChild 0 "HEAD", .set 2 "ITEMS" (.integer 300), .set 2 "STATUS" (.text "?"),
    .set 1 "STATUS" (.text "OK")].foldl Document.edit (.new checkedSchema Document.twoItems.creation)

/-- The second flag is not one that is allowed. -/
def flagged : Record :=
  [([], .addRow "FLAGS"), ([], .addRow "FLAGS"), ([.row "FLAGS" 1], .set "ON" (.text "Y")),
    ([.row "FLAGS" 0], .set "ON" (.text "X"))].foldl (fun r (path, e) => r.editBelow path e)
    (Record.request ((checked.functions[0]?).get rfl))

theorem reports_exact_checked :
    (Document.Reach checked doubtfulOrder ∧ DocumentReported doubtfulOrder ∧ doubtfulOrder.validate =
      [⟨"/ROOT", .tooFew "SUM" 0 1⟩, ⟨"/ROOT/HEAD[1]", .notAllowed "STATUS" "?" ["OK", "KO"]⟩,
        ⟨"/ROOT/HEAD[1]", .notRepresentable "ITEMS" (.outOfRange .int1 "300" (.integer 0 255))⟩]) ∧
    (Record.Arises checked flagged ∧ RecordReported flagged ∧
      flagged.validate = [⟨"/Request/FLAGS[1]", .notAllowed "ON" "Y" ["X"]⟩]) ∧
    ∃ text n, Document.twoItems.validate = [] ∧ Xml.documentText {} Document.twoItems = .ok text ∧
      Native.ofDocument Document.twoItems = .ok n := by
  obtain ⟨hdocument, hrecord⟩ := reports_exact checked_compiled
  have hdoubtful : Document.Reach checked doubtfulOrder := (Document.Reach.new _ _ List.mem_cons_self).edits _
  have hflagged : Record.Arises checked flagged :=
    .edit _ _ _ (.edit _ _ _ (.edit _ _ _ (.edit _ _ _ (.made _ (.request _ List.mem_cons_self)))))
  have hempty : Document.twoItems.validate = [] := by decide +kernel
  obtain ⟨htext, n, hn⟩ := ((reports_exact Document.orders_compiled).1 _ Document.twoItems_reach).written hempty
  obtain ⟨text, ht⟩ := htext {}
  refine ⟨⟨hdoubtful, hdocument _ hdoubtful, ?_⟩, ⟨hflagged, hrecord _ hflagged _ ?_, ?_⟩, text, n, hempty, ht, hn⟩
  · decide +kernel
  · exact Record.mem_preorder.mpr (.inl rfl)
  · decide +kernel

end DocWire.Boundaries
