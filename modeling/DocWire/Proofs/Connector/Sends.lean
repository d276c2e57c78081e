/-
  DocWire.Proofs.Connector.Sends — sending is all or nothing, over any run of calls.

  The rule is that the documents of a call are sent together or not at all. A connector is changed in place: what an
  operation has done to it stays done when a later one of the same call fails. `Sending` are such operations. A call
  converts its documents one by one, and hands over a batch of them all, under an identifier that was drawn for the call;
  or it takes the log (`perform`). This comes to what `send`, `sendBatch`, `sendQueued` and `takeSent` say
  (`perform_on`), since nothing is handed over before the last conversion has succeeded.

  What a run leaves in the log is told by what its calls were answered (`outstanding`): behind the last time that the log
  was taken, one batch for every call that was answered with an identifier, in the order of the calls. `sends_logged`
  says that the log is just that after any run, that a call fails exactly where a set value has no wire string or the
  queue has no name, and that it then leaves the connector as it was. Each call does one of three things
  (`perform_cases`), and the run is followed call by call.
-/

import DocWire.Connector.Memory
import DocWire.Proofs.Boundaries.Written
import Mathlib.Data.List.DropRight

namespace DocWire

namespace Connector

/-! ## Operations -/

/-- An operation on a connector that is changed in place. -/
abbrev Sending (α : Type) := ExceptT ConnectorError (StateM Connector) α

/-- What an operation comes to on a connector: its result, and the connector that it leaves behind. -/
def Sending.on {α : Type} (x : Sending α) (c : Connector) : Except ConnectorError α × Connector := x.run.run c

def convert (d : Document) : Sending NativeDocument := MonadExcept.ofExcept (Native.ofDocument d)

/-- The connector records a batch. -/
def handOver (batch : SentBatch) : Sending Unit := modify (·.record batch)

/-- The connector records a batch for a queue, which needs a name. -/
def handOverTo (queue : String) (tid : TransactionId) (ns : List NativeDocument) : Sending Unit :=
  if queue.isEmpty then throw (.native .emptyQueueName) else handOver ⟨tid, some queue, ns⟩

def takeLog : Sending (List SentBatch) := modifyGet takeSent

/-- What a caller asks of a connector. -/
inductive Call where
  | send (d : Document)
  | sendBatch (b : Batch)
  | sendQueued (b : Batch) (queue : String)
  | takeSent

inductive Answer where
  /-- The documents were sent under this identifier. -/
  | sent (tid : TransactionId)
  | taken (log : List SentBatch)

namespace Call

def documents : Call → List Document
  | .send d => [d]
  | .sendBatch b => b.documents
  | .sendQueued b _ => b.documents
  | .takeSent => []

/-- The queue of a queued send. -/
def queue? : Call → Option String
  | .sendQueued _ queue => some queue
  | _ => none

def isTake : Call → Bool
  | .takeSent => true
  | _ => false

/-- The documents of the call came about under compiled registries. -/
def Made : Call → Prop
  | .send d => ∃ schema r, Registry.compile schema = .ok r ∧ Document.Reach r d
  | .sendBatch b => ∃ schema r, Registry.compile schema = .ok r ∧ Batch.Reach r b
  | .sendQueued b _ => ∃ schema r, Registry.compile schema = .ok r ∧ Batch.Reach r b
  | .takeSent => True

/-- A value that is set in one of the documents has no wire string, or the queue has no name. -/
def Unsendable (call : Call) : Prop :=
  (∃ d ∈ call.documents, ∃ i s, d.segment? i = some s ∧
    ∃ e ∈ s.entries, ∃ cause, Coercion.encode e.1.format e.2 = .error cause) ∨ call.queue? = some ""

end Call

/-- A call, with the identifier that is drawn for it. -/
def perform (tid : TransactionId) : Call → Sending Answer
  | .send d => do
    let n ← convert d
    handOver ⟨tid, none, [n]⟩
    return .sent tid
  | .sendBatch b => do
    let ns ← b.documents.mapM convert
    handOver ⟨tid, none, ns⟩
    return .sent tid
  | .sendQueued b queue => do
    let ns ← b.documents.mapM convert
    handOverTo queue tid ns
    return .sent tid
  | .takeSent => do
    let log ← takeLog
    return .taken log

/-- The same call in one piece: it yields another connector, or fails and yields none. -/
def attempt (c : Connector) (tid : TransactionId) : Call → Except ConnectorError (Answer × Connector)
  | .send d => (c.send tid d).map fun c => (.sent tid, c)
  | .sendBatch b => (c.sendBatch tid b).map fun c => (.sent tid, c)
  | .sendQueued b queue => (c.sendQueued tid b queue).map fun c => (.sent tid, c)
  | .takeSent => .ok (.taken c.takeSent.1, c.takeSent.2)

section Sending

variable {α β : Type} {c : Connector}

/-- An operation that follows another: it finds the connector as that one left it, unless that one failed. -/
theorem Sending.on_bind (x : Sending α) (f : α → Sending β) :
    Sending.on (x >>= f) c =
      match x.on c with
      | (.ok a, c') => (f a).on c'
      | (.error e, c') => (.error e, c') := by
  show Outcome.inPlace (x >>= f) c = match Outcome.inPlace x c with
    | (.ok a, c') => Outcome.inPlace (f a) c'
    | (.error e, c') => (.error e, c')
  rw [Outcome.inPlace_bind]
  rcases Outcome.inPlace x c with ⟨r, c'⟩
  cases r <;> rfl

end Sending

variable {c c' : Connector} {tid : TransactionId} {call : Call}

theorem convert_on (d : Document) : (convert d).on c = (Native.ofDocument d, c) := by
  unfold convert
  cases Native.ofDocument d <;> rfl

/-- Documents are converted up to the first that cannot be; the connector is not touched. -/
theorem convertAll_on (ds : List Document) : Sending.on (ds.mapM convert) c = (ds.mapM Native.ofDocument, c) := by
  induction ds with
  | nil => rfl
  | cons d rest ih =>
    rw [List.mapM_cons, List.mapM_cons, Sending.on_bind, convert_on]
    cases Native.ofDocument d with
    | error e => rfl
    | ok n =>
      simp only [Sending.on_bind, ih]
      cases rest.mapM Native.ofDocument <;> rfl

/-- In place or in one piece, a call comes to the same; one that fails leaves the connector as it was. -/
theorem perform_on (call : Call) : (perform tid call).on c =
    match c.attempt tid call with
    | .ok (answer, c') => (.ok answer, c')
    | .error e => (.error e, c) := by
  cases call with
  | send d =>
    simp only [perform, attempt, Connector.send, Sending.on_bind, convert_on]
    cases Native.ofDocument d <;> rfl
  | sendBatch b =>
    simp only [perform, attempt, Connector.sendBatch, Native.ofBatch, Sending.on_bind, convertAll_on]
    cases b.documents.mapM Native.ofDocument <;> rfl
  | sendQueued b queue =>
    simp only [perform, attempt, Connector.sendQueued, Native.ofBatch, Sending.on_bind, convertAll_on, handOverTo]
    cases b.documents.mapM Native.ofDocument with
    | error e => rfl
    | ok ns =>
      cases queue.isEmpty <;> rfl
  | takeSent => rfl

/-! ## What one call does -/

/-- A batch is what a call sent under an identifier: its queue, and the conversions of its documents in their order. -/
structure Logged (x : Call × TransactionId) (batch : SentBatch) : Prop where
  tid : batch.tid = x.2
  queue : batch.queue = x.1.queue?
  documents : List.Forall₂ (fun d n => Native.ofDocument d = .ok n) x.1.documents batch.documents

theorem sendQueued_eq_ok {b : Batch} {queue : String} : c.sendQueued tid b queue = .ok c' ↔
    ∃ ns, b.documents.mapM Native.ofDocument = .ok ns ∧ queue ≠ "" ∧ c' = c.record ⟨tid, some queue, ns⟩ := by
  unfold Connector.sendQueued Native.ofBatch
  cases b.documents.mapM Native.ofDocument with
  | error e => simp
  | ok ns =>
    by_cases hqueue : queue = ""
    · simp [hqueue]
    · simp only [String.isEmpty_iff, hqueue, if_false, Except.ok.injEq, ne_eq, not_false_eq_true, true_and,
        exists_eq_left']
      exact eq_comm

/-- A call that is answered with another connector has recorded one batch, or has taken the log. -/
theorem attempt_cases {answer : Answer} (h : c.attempt tid call = .ok (answer, c')) :
    (∃ batch, answer = .sent tid ∧ call.isTake = false ∧ c' = c.record batch ∧ Logged (call, tid) batch) ∨
      (answer = .taken c.sent ∧ call.isTake = true ∧ c' = { c with sent := [] }) := by
  cases call with
  | send d =>
    obtain ⟨c₁, hsend, he⟩ := Outcome.map_eq_ok.mp h
    obtain ⟨n, hn, rfl⟩ := Outcome.map_eq_ok.mp hsend
    cases he
    exact .inl ⟨_, rfl, rfl, rfl, rfl, rfl, .cons hn .nil⟩
  | sendBatch b =>
    obtain ⟨c₁, hsend, he⟩ := Outcome.map_eq_ok.mp h
    obtain ⟨ns, hns, rfl⟩ := Outcome.map_eq_ok.mp hsend
    cases he
    exact .inl ⟨_, rfl, rfl, rfl, rfl, rfl, Pairing.of_mapM hns⟩
  | sendQueued b queue =>
    obtain ⟨c₁, hsend, he⟩ := Outcome.map_eq_ok.mp h
    obtain ⟨ns, hns, -, rfl⟩ := sendQueued_eq_ok.mp hsend
    cases he
    exact .inl ⟨_, rfl, rfl, rfl, rfl, rfl, Pairing.of_mapM hns⟩
  | takeSent =>
    cases h
    exact .inr ⟨rfl, rfl, rfl⟩

theorem perform_cases {answer : Except ConnectorError Answer} (h : (perform tid call).on c = (answer, c')) :
    (∃ e, answer = .error e ∧ call.isTake = false ∧ c' = c) ∨
    (∃ batch, answer = .ok (.sent tid) ∧ call.isTake = false ∧ c' = c.record batch ∧ Logged (call, tid) batch) ∨
    (answer = .ok (.taken c.sent) ∧ call.isTake = true ∧ c' = { c with sent := [] }) := by
  rw [perform_on] at h
  cases hattempt : c.attempt tid call with
  | error e =>
    rw [hattempt] at h
    cases h
    refine .inl ⟨e, rfl, ?_, rfl⟩
    cases call with
    | takeSent => cases hattempt
    | _ => rfl
  | ok out =>
    obtain ⟨answer', c₁⟩ := out
    rw [hattempt] at h
    cases h
    rcases attempt_cases hattempt with ⟨batch, rfl, htake, hc, hlogged⟩ | ⟨rfl, htake, hc⟩
    · exact .inr (.inl ⟨batch, rfl, htake, hc, hlogged⟩)
    · exact .inr (.inr ⟨rfl, htake, hc⟩)

/-! ## When a call fails -/

theorem Call.Made.documents (h : call.Made) : ∀ d ∈ call.documents, d.schema.Resolved ∧ d.Sound := by
  have hbatch : ∀ b : Batch, (∃ schema r, Registry.compile schema = .ok r ∧ Batch.Reach r b) →
      ∀ d ∈ b.documents, d.schema.Resolved ∧ d.Sound := by
    rintro b ⟨schema, r, hr, hb⟩ d hd
    obtain ⟨hm, hall⟩ := hb.documents hr
    obtain ⟨hschema, hsound⟩ := hall d hd
    exact ⟨hschema ▸ Registry.resolved hr hm, hsound⟩
  cases call with
  | send d =>
    obtain ⟨schema, r, hr, hd⟩ := h
    obtain ⟨hm, hsound⟩ := hd.sound hr
    intro d' hd'
    rw [List.mem_singleton.mp hd']
    exact ⟨Registry.resolved hr hm, hsound⟩
  | sendBatch b => exact hbatch b h
  | sendQueued b queue => exact hbatch b h
  | takeSent =>
    intro d hd
    cases hd

/-- All documents are converted exactly where all their set values have wire strings. -/
theorem converted_iff {ds : List Document} (hds : ∀ d ∈ ds, d.schema.Resolved ∧ d.Sound) :
    (∃ ns, ds.mapM Native.ofDocument = .ok ns) ↔ ¬ ∃ d ∈ ds, ∃ i s, d.segment? i = some s ∧
      ∃ e ∈ s.entries, ∃ cause, Coercion.encode e.1.format e.2 = .error cause := by
  rw [(Boundaries.documents_agree hds 0).succeed_iff.2]
  constructor
  · rintro hall ⟨d, hd, i, s, hs, e, he, hcause⟩
    refine not_encodes_iff.mpr hcause (hall e ?_)
    exact List.mem_flatMap.mpr ⟨d, hd, (Boundaries.mem_documentEntries (hds d hd).2).mpr ⟨i, s, hs, he⟩⟩
  · intro hnone e he
    obtain ⟨d, hd, he⟩ := List.mem_flatMap.mp he
    obtain ⟨i, s, hs, he⟩ := (Boundaries.mem_documentEntries (hds d hd).2).mp he
    by_contra hfault
    exact hnone ⟨d, hd, i, s, hs, e, he, not_encodes_iff.mp hfault⟩

/-- A call is answered exactly where its documents are converted and the queue it is for has a name. -/
theorem attempt_ok_iff : (∃ out, c.attempt tid call = .ok out) ↔
    (∃ ns, call.documents.mapM Native.ofDocument = .ok ns) ∧ call.queue? ≠ some "" := by
  have hunqueued : (none : Option String) ≠ some "" := by
    intro h
    cases h
  cases call with
  | send d =>
    have hone : [d].mapM Native.ofDocument = (Native.ofDocument d).map fun n => [n] := by
      rw [List.mapM_cons, List.mapM_nil]
      cases Native.ofDocument d <;> rfl
    simp only [attempt, Connector.send, Call.documents, Call.queue?, hone, Outcome.exists_map_ok, and_iff_left hunqueued]
  | sendBatch b =>
    simp only [attempt, Connector.sendBatch, Native.ofBatch, Call.documents, Call.queue?, Outcome.exists_map_ok,
      and_iff_left hunqueued]
  | sendQueued b queue =>
    rw [attempt, Outcome.exists_map_ok, Call.documents, Call.queue?]
    constructor
    · rintro ⟨c', hok⟩
      obtain ⟨ns, hns, hname, -⟩ := sendQueued_eq_ok.mp hok
      exact ⟨⟨ns, hns⟩, fun h => hname (Option.some.inj h)⟩
    · rintro ⟨⟨ns, hns⟩, hname⟩
      exact ⟨_, sendQueued_eq_ok.mpr ⟨ns, hns, fun h => hname (congrArg some h), rfl⟩⟩
  | takeSent => exact iff_of_true ⟨_, rfl⟩ ⟨⟨[], rfl⟩, hunqueued⟩

theorem fails_iff (h : call.Made) : (∃ e, ((perform tid call).on c).1 = .error e) ↔ call.Unsendable := by
  have hanswer : ((perform tid call).on c).1 = (c.attempt tid call).map Prod.fst := by
    rw [perform_on]
    cases c.attempt tid call <;> rfl
  rw [hanswer, Outcome.exists_error_iff, Outcome.exists_map_ok, attempt_ok_iff, converted_iff h.documents, not_and_or,
    not_not, not_not]
  rfl

/-! ## Runs of calls -/

/-- The calls of a run, each with what it was answered. -/
abbrev History := List (Call × Except ConnectorError Answer)

def run (c : Connector) : List (TransactionId × Call) → History × Connector
  | [] => ([], c)
  | (tid, call) :: rest =>
    let (answer, c) := (perform tid call).on c
    let (history, c) := run c rest
    ((call, answer) :: history, c)

/-- The identifier with which a call was answered, with the call. -/
def delivered? : Call × Except ConnectorError Answer → Option (Call × TransactionId)
  | (call, .ok (.sent tid)) => some (call, tid)
  | _ => none

/-- The sends that succeeded since the log was last taken, each with its identifier. -/
def outstanding (history : History) : List (Call × TransactionId) :=
  (history.rtakeWhile fun x => !x.1.isTake).filterMap delivered?

theorem run_snoc (calls : List (TransactionId × Call)) (tid : TransactionId) (call : Call) (c : Connector) :
    (run c (calls ++ [(tid, call)])).1 =
        (run c calls).1 ++ [(call, ((perform tid call).on (run c calls).2).1)] ∧
      (run c (calls ++ [(tid, call)])).2 = ((perform tid call).on (run c calls).2).2 := by
  induction calls generalizing c with
  | nil => exact ⟨rfl, rfl⟩
  | cons x rest ih =>
    obtain ⟨hhistory, hleft⟩ := ih ((perform x.1 x.2).on c).2
    refine ⟨?_, hleft⟩
    exact congrArg (_ :: ·) hhistory

theorem outstanding_snoc (history : History) (answer : Except ConnectorError Answer) :
    outstanding (history ++ [(call, answer)]) =
      if call.isTake then [] else outstanding history ++ (delivered? (call, answer)).toList := by
  unfold outstanding
  rw [List.rtakeWhile_concat]
  cases htake : call.isTake with
  | true => rfl
  | false =>
    rw [if_pos Bool.not_false, if_neg Bool.false_ne_true, List.filterMap_append]
    cases hdelivered : delivered? (call, answer) <;> simp [hdelivered]

/-- Behind any run the log holds the outstanding sends, under identifiers that the run drew. -/
theorem run_logged (handlers : List (String × Handler)) (calls : List (TransactionId × Call)) :
    List.Forall₂ Logged (outstanding (run (new handlers) calls).1) (run (new handlers) calls).2.sent ∧
      ((run (new handlers) calls).2.sent.map SentBatch.tid).Sublist (calls.map Prod.fst) := by
  induction calls using List.reverseRecOn with
  | nil => exact ⟨.nil, .slnil⟩
  | append_singleton calls x ih =>
    obtain ⟨tid, call⟩ := x
    obtain ⟨hlogged, hdrawn⟩ := ih
    obtain ⟨hhistory, hleft⟩ := run_snoc calls tid call (new handlers)
    rw [hhistory, hleft, outstanding_snoc, List.map_append]
    generalize (run (new handlers) calls).2 = c at hlogged hdrawn
    generalize hperform : (perform tid call).on c = out
    obtain ⟨answer, c'⟩ := out
    rcases perform_cases hperform with
      ⟨e, rfl, htake, rfl⟩ | ⟨batch, rfl, htake, rfl, hbatch⟩ | ⟨rfl, htake, rfl⟩
    · -- a failed call adds nothing
      rw [htake, if_neg Bool.false_ne_true]
      refine ⟨?_, hdrawn.trans (List.sublist_append_left _ _)⟩
      exact (List.append_nil _).symm ▸ hlogged
    · rw [htake, if_neg Bool.false_ne_true]
      refine ⟨List.rel_append hlogged (.cons hbatch .nil), ?_⟩
      show ((c.sent ++ [batch]).map SentBatch.tid).Sublist _
      rw [List.map_append, List.map_singleton, hbatch.tid]
      exact hdrawn.append (List.Sublist.refl _)
    · rw [htake, if_pos rfl]
      exact ⟨.nil, List.nil_sublist _⟩

/-- Sends are all or nothing, over whole runs. After any run of calls on a new connector the log holds one batch for
each send that succeeded since it was last taken, in the order of the calls: under the identifier that the call was
answered with, for its queue, and with the conversions of all its documents in their order; identifiers that are drawn
afresh for every call are told apart there. And a further call fails exactly where a value that is set in one of its
documents has no wire string or its queue has no name; then it leaves the connector as it was, whatever it had converted.
Taking the log hands it out and leaves none. -/
theorem sends_logged (handlers : List (String × Handler)) (calls : List (TransactionId × Call)) (history : History)
    (c : Connector) (hrun : run (new handlers) calls = (history, c)) :
    List.Forall₂ Logged (outstanding history) c.sent ∧
    ((calls.map Prod.fst).Nodup → (c.sent.map SentBatch.tid).Nodup) ∧
    ∀ tid call answer c', (perform tid call).on c = (answer, c') →
      (call.Made → ((∃ e, answer = .error e) ↔ call.Unsendable)) ∧
      ((∃ e, answer = .error e) → c' = c) ∧
      (call.isTake → answer = .ok (.taken c.sent) ∧ c'.sent = []) := by
  have hlogged := run_logged handlers calls
  rw [hrun] at hlogged
  refine ⟨hlogged.1, fun hfresh => hlogged.2.nodup hfresh, ?_⟩
  intro tid call answer c' hperform
  refine ⟨?_, ?_, ?_⟩
  · intro hmade
    have hfails : (∃ e, ((perform tid call).on c).1 = .error e) ↔ call.Unsendable := fails_iff hmade
    rwa [hperform] at hfails
  · rintro ⟨e, rfl⟩
    rcases perform_cases hperform with ⟨-, -, -, hc⟩ | ⟨batch, hanswer, -⟩ | ⟨hanswer, -⟩
    · exact hc
    · cases hanswer
    · cases hanswer
  · intro htake
    rcases perform_cases hperform with ⟨-, -, hno, -⟩ | ⟨batch, -, hno, -⟩ | ⟨hanswer, -, hc⟩
    · rw [htake] at hno
      cases hno
    · rw [htake] at hno
      cases hno
    · exact ⟨hanswer, congrArg Connector.sent hc⟩

/-- Two orders, of which the second has a price that cannot be written out. -/
def mixedOrders : Batch := ⟨Document.orderSchema, [Document.twoItems, Boundaries.overpriced]⟩

theorem mixedOrders_reach : Batch.Reach Document.orders mixedOrders :=
  .push _ _ Boundaries.overpriced
    (.push (.new Document.orderSchema) _ Document.twoItems (.new _ List.mem_cons_self) Document.twoItems_reach
      (if_pos (by decide +kernel)))
    (.edit _ _ Document.twoItems_reach) (if_pos (by decide +kernel))

/-- Sends of all kinds, one of them behind the log being taken; that of the mixed orders fails. -/
def orderCallsMade : List (TransactionId × Call) :=
  [(.ofNat 1, .send Document.twoItems), (.ofNat 2, .takeSent), (.ofNat 3, .sendQueued Xml.twoOrders "ORDERS"),
    (.ofNat 4, .sendBatch mixedOrders)]

theorem sends_logged_orders : ∃ history c answer c', run (new []) orderCallsMade = (history, c) ∧
    c.sent.map SentBatch.queue = [some "ORDERS"] ∧ List.Forall₂ Logged (outstanding history) c.sent ∧
    (c.sent.map SentBatch.tid).Nodup ∧ (perform (.ofNat 5) (.sendBatch mixedOrders)).on c = (answer, c') ∧
    (∃ e, answer = .error e) ∧ (Call.sendBatch mixedOrders).Unsendable ∧ c' = c := by
  obtain ⟨hlogged, hfresh, hnext⟩ := sends_logged [] orderCallsMade _ _ rfl
  obtain ⟨hfails, hkept, -⟩ := hnext (.ofNat 5) (.sendBatch mixedOrders) _ _ rfl
  have herror : ∃ e, ((perform (.ofNat 5) (.sendBatch mixedOrders)).on (run (new []) orderCallsMade).2).1 = .error e := by
    refine Outcome.exists_error ?_
    decide +kernel
  have hmade : (Call.sendBatch mixedOrders).Made := ⟨_, _, Document.orders_compiled, mixedOrders_reach⟩
  exact ⟨_, _, _, _, rfl, by decide +kernel, hlogged, hfresh (by decide +kernel), rfl, herror, (hfails hmade).mp herror,
    hkept herror⟩

end Connector

end DocWire
