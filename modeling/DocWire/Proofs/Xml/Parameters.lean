/-
  DocWire.Proofs.Xml.Parameters — parameter sets come back from XML.

  A function is found again by its namespace, and the name of the top element tells its request from its
  response. What was absent, made but empty, or filled is so again, at every depth.
-/

import DocWire.Proofs.Parameters.Reach
import DocWire.Proofs.Schema.Registry
import DocWire.Proofs.Xml.Members

namespace DocWire

/-- A function that XML can carry: its name stands in a namespace, and its members' names are names there. -/
structure Function.XmlSafe (f : Function) : Prop where
  named : f.name ≠ ""
  markless : Name.Markless f.name
  referenceFree : ReferenceFree f.name
  request : f.request.XmlSafe
  response : f.response.XmlSafe

instance Function.decidableXmlSafe (f : Function) : Decidable f.XmlSafe :=
  decidable_of_iff (f.name ≠ "" ∧ Name.Markless f.name ∧ ReferenceFree f.name ∧ f.request.XmlSafe ∧ f.response.XmlSafe)
    ⟨fun h => ⟨h.1, h.2.1, h.2.2.1, h.2.2.2.1, h.2.2.2.2⟩,
      fun h => ⟨h.named, h.markless, h.referenceFree, h.request, h.response⟩⟩

namespace Xml

open Markup (Element Head Unbroken elementsIn readAs)

variable {schema : Definition} {reg : Registry} {o o' : Options} {r : Record}

theorem rfcNamespace_congr (h : o'.base = o.base) : o'.rfcNamespace = o.rfcNamespace := by
  simp only [Options.rfcNamespace, Options.trimmedBase, h]

/-- What the top element of a parameter set is read as, its children apart. -/
def recordHead (o : Options) (function name : String) (attrs : Attributes) : Head :=
  ⟨some o.rfcNamespace, name, [(Options.rfcPrefix, o.rfcNamespace),
    (messagePrefix function, o.functionNamespace function)], readAs attrs⟩

/-- The function is looked for under the name that the namespace of a parameter set tells. -/
theorem topFunction_recordHead (hbase : o'.base = o.base) (function name : String) (attrs : Attributes) :
    topFunction reg o' (recordHead o function name attrs) =
      match o.functionName? (o.functionNamespace function) with
      | none => .error (.missingNamespace .parameters o'.base)
      | some name => ((reg.function name).mapError .registry).map fun f => (f, o.functionNamespace function) := by
  have hns := rfcNamespace_congr hbase
  have hkind : o'.functionName? o.rfcNamespace = none := by
    rw [← hns]
    exact functionName?_rfcNamespace o'
  have hsame : o'.functionName? = o.functionName? := by
    funext uri
    rw [Options.functionName?, Options.functionName?, hns]
  rw [topFunction, recordHead]
  simp only [List.findSome?_cons, hkind, Option.map_none]
  rw [hsame]
  cases o.functionName? (o.functionNamespace function) with
  | none => rfl
  | some name => rfl

/-- A function is found by the namespace of its parameter sets. -/
theorem topFunction_found (hr : Registry.compile schema = .ok reg) {f : Function} (hf : f ∈ reg.functions)
    (hnamed : f.name ≠ "") (hmarkless : Name.Markless f.name) (hbase : o'.base = o.base) (name : String)
    (attrs : Attributes) : topFunction reg o' (recordHead o f.name name attrs) = .ok (f, o.functionNamespace f.name) := by
  rw [topFunction_recordHead hbase, functionName?_functionNamespace o hnamed, Name.unescape_escape hmarkless]
  simp only [Registry.function_name hr hf, Outcome.mapError_ok, Outcome.map_ok]

/-- A request and a response are told apart by their names, and either is a name of a top element. -/
theorem start_eq (hf : r.function.Resolved) (hs : r.shape = r.function.request ∨ r.shape = r.function.response) :
    (if r.name == Function.requestName then Record.request r.function else .response r.function) =
        .blank r.function r.shape ∧
      Unbroken r.name ∧ [Function.requestName, Function.responseName].contains r.name = true := by
  rcases hs with hs | hs
  · have hn : r.name = Function.requestName := by rw [Record.name, hs, hf.requestName]
    rw [hn, hs]
    exact ⟨rfl, by decide, by decide⟩
  · have hn : r.name = Function.responseName := by rw [Record.name, hs, hf.responseName]
    have hne : (Function.responseName == Function.requestName) = false := by decide
    rw [hn, hs, hne]
    exact ⟨rfl, by decide, by decide⟩

/-- What is read from a top element of a record's function and name is read into a blank one of its shape. -/
theorem decodeRecord_found (hf : r.function.Resolved) (hs : r.shape = r.function.request ∨ r.shape = r.function.response)
    (hbase : o'.base = o.base) {attrs : Attributes} {ns : String}
    (htop : topFunction reg o' (recordHead o r.function.name r.name attrs) = .ok (r.function, ns))
    (children : List Element) :
    decodeRecord reg o' (.mk (recordHead o r.function.name r.name attrs) children) =
      readRecord ns (.blank r.function r.shape) (.mk (recordHead o r.function.name r.name attrs) children) := by
  obtain ⟨hstart, -, hname⟩ := start_eq hf hs
  have hcheck : checkTop (recordHead o r.function.name r.name attrs) o'.rfcNamespace
      [Function.requestName, Function.responseName] = .ok () := by
    simp only [checkTop, recordHead, rfcNamespace_congr hbase, BEq.rfl, hname, Bool.and_self, if_true]
  rw [decodeRecord, Element.head, hcheck]
  simp only [htop]
  rw [← hstart]
  rfl

theorem decodeRecord_top (hr : Registry.compile schema = .ok reg) (hf : r.function ∈ reg.functions)
    (hsafe : r.function.XmlSafe) (hs : r.shape = r.function.request ∨ r.shape = r.function.response)
    (hbase : o'.base = o.base) (attrs : Attributes) (children : List Element) :
    decodeRecord reg o' (.mk (recordHead o r.function.name r.name attrs) children) =
      readRecord (o.functionNamespace r.function.name) (.blank r.function r.shape)
        (.mk (recordHead o r.function.name r.name attrs) children) :=
  decodeRecord_found ((Registry.compile_functions hr).1 _ hf) hs hbase
    (topFunction_found hr hf hsafe.named hsafe.markless hbase r.name attrs) children

/-- Parameter sets come back from XML. Whatever comes about as a request or a response under a compiled
registry, of a function that XML can carry: where it can be written, the text is read with the same registry
and base, in any layout, and what is read is the same, slot by slot, but for what becomes of values on the
wire. -/
theorem record_returned (hr : Registry.compile schema = .ok reg) (h : Record.Reach reg r) (hsafe : r.function.XmlSafe)
    (ho : ReferenceFree o.base) (hbase : o'.base = o.base) {text : String} (ht : recordText o r = .ok text) :
    ∃ r', recordOfText reg o' text = .ok r' ∧ r.Recovered r' := by
  obtain ⟨hf, hshape, hsound⟩ := h.sound
  have hres := (Registry.compile_functions hr).1 _ hf
  obtain ⟨-, hname, -⟩ := start_eq hres hshape
  have hcarried : r.shape.Carried := by
    rcases hshape with hs | hs
    · exact hs ▸ ⟨hres.request, hsafe.request⟩
    · exact hs ▸ ⟨hres.response, hsafe.response⟩
  obtain ⟨hkind, hfunction⟩ := declarable_record (o := o) ho hsafe.referenceFree
  have hb := bound_messageScope hkind hfunction
  have hnone : Advice [] := fun a ha => by cases ha
  obtain ⟨hentries, hnd⟩ := record_entries_safe hcarried
  have hsimple := simple_attributes hnone hentries
  have hattrs := nodup_attributes hnone List.nodup_nil hentries hnd
  obtain ⟨w, hw, rfl⟩ := Outcome.map_eq_ok.mp ht
  cases r with
  | mk f shape slots =>
    obtain ⟨ws, hws, henc, rfl⟩ := encodeRecordAs_ok hw
    have hplain := encodeSlots_plain hb slots hcarried.safe.members (fun m hm t ht => hcarried.below hm ht) hsound hws
    have htext := elementOfText_top hkind hfunction (messagePrefix_untaken _).2 hname hsimple hattrs hplain o.indent
      o.declaration
    obtain ⟨r', hread, hrec⟩ := readRecord_encoded (h := recordHead o f.name (Record.mk f shape slots).name
      ((Record.mk f shape slots).entries.map attributeOf)) hsound hcarried henc hnone rfl
      fun cells hcells => readMembers_encoded hb slots [] [] hcarried rfl rfl hsound hcells hws
    refine ⟨r', Outcome.bind_eq_ok.mpr ⟨_, htext, ?_⟩, hrec⟩
    have hdecode := decodeRecord_top (r := .mk f shape slots) hr hf hsafe hshape hbase
      ((Record.mk f shape slots).entries.map attributeOf) (elementsIn (messageScope Options.rfcPrefix o.rfcNamespace
        (messagePrefix f.name) (o.functionNamespace f.name)) ws)
    exact hdecode.trans hread

/-- A function that takes an address and items. -/
def orderCall : Definition :=
  { structures :=
      [{ name := "ADDRESS", members := [.field { name := "CITY", type := .char, length := 6 }] },
       { name := "ITEM", members := [.field { name := "/BIZ/AMOUNT", type := .int4 }, .nested "TO" "" "ADDRESS"] }]
    functions :=
      [{ name := "/BIZ/ORDER", imports := [.field { name := "ID", type := .char }, .nested "ADDRESS" "" "ADDRESS"],
         tables := [.table "ITEMS" "" "ITEM", .table "NOTES" "" "ADDRESS"] }] }

def orderCalls : Registry := (Registry.compile orderCall).toOption.get rfl

theorem orderCalls_compiled : Registry.compile orderCall = .ok orderCalls := rfl

def orderFunction : Function := (orderCalls.function "/BIZ/ORDER").toOption.get rfl

/-- A request with an empty address, an empty table, and a row with a structure in it. -/
def orderRequest : Record :=
  (((((Record.request orderFunction).editBelow [] (.setWire "ID" "4711")).editBelow [] (.makeNested "ADDRESS")).editBelow
    [] (.makeTable "NOTES")).editBelow [] (.addRow "ITEMS")).editBelow [.row "ITEMS" 0, .nested "TO"]
      (.setWire "CITY" "Augsburg")

theorem orderRequest_reach : Record.Reach orderCalls orderRequest :=
  .edit _ _ _ (.edit _ _ _ (.edit _ _ _ (.edit _ _ _ (.edit _ _ _ (.request orderFunction List.mem_cons_self)))))

theorem record_returned_order : ∃ text : String, recordText {} orderRequest = .ok text ∧
    ∃ r', recordOfText orderCalls { indent := 0, declaration := false } text = .ok r' ∧ orderRequest.Recovered r' := by
  obtain ⟨text, htext⟩ := Outcome.exists_ok (x := recordText {} orderRequest) (by decide +kernel)
  have hsafe : orderRequest.function.XmlSafe := by decide +kernel
  have hbase : ReferenceFree ({} : Options).base := by decide +kernel
  exact ⟨text, htext, record_returned orderCalls_compiled orderRequest_reach hsafe hbase rfl htext⟩

end Xml

end DocWire
