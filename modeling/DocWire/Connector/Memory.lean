/-
  DocWire.Connector.Memory — a connector that keeps what it is given.

  Sends are recorded in a log, oldest first; a list is converted as a whole before any of it is sent.
  Function calls are answered by handlers. A queued send needs a queue name, and a call needs a handler.
-/

import DocWire.Connector.Consume
import DocWire.Connector.Produce
import DocWire.Connector.Transaction

namespace DocWire

/-- One recorded send. -/
structure SentBatch where
  tid : TransactionId
  /-- The queue of a queued send. -/
  queue : Option String
  documents : List NativeDocument

/-- What answers the calls of a function. -/
abbrev Handler := NativeRecord → Except NativeError NativeRecord

structure Connector where
  sent : List SentBatch
  handlers : List (String × Handler)

namespace Connector

def name : String := "MemoryConnector"

/-- A connector with handlers by function names and nothing sent. -/
def new (handlers : List (String × Handler)) : Connector := ⟨[], handlers⟩

/-- The number of sends and the names of the handled functions, sorted. -/
def display (c : Connector) : String :=
  let functions := (c.handlers.map (·.1)).mergeSort (fun a b => a ≤ b)
  name ++ " \x7b sent: " ++ toString c.sent.length ++ ", functions: " ++ Text.quoteList functions ++ " \x7d"

/-! ## Sending -/

def record (c : Connector) (batch : SentBatch) : Connector := { c with sent := c.sent ++ [batch] }

/-- Sends one document. -/
def send (c : Connector) (tid : TransactionId) (d : Document) : Except ConnectorError Connector :=
  (Native.ofDocument d).map fun n => c.record ⟨tid, none, [n]⟩

/-- Sends all documents of a list together. -/
def sendBatch (c : Connector) (tid : TransactionId) (b : Batch) : Except ConnectorError Connector :=
  (Native.ofBatch b).map fun ns => c.record ⟨tid, none, ns⟩

/-- Sends all documents of a list together to a queue. -/
def sendQueued (c : Connector) (tid : TransactionId) (b : Batch) (queue : String) :
    Except ConnectorError Connector :=
  match Native.ofBatch b with
  | .error e => .error e
  | .ok ns =>
    if queue.isEmpty then .error (.native .emptyQueueName) else .ok (c.record ⟨tid, some queue, ns⟩)

/-- Takes the log out of the connector. -/
def takeSent (c : Connector) : List SentBatch × Connector := (c.sent, { c with sent := [] })

/-! ## Calling -/

def handler (c : Connector) (function : String) : Except NativeError Handler :=
  match c.handlers.lookup function with
  | some h => .ok h
  | none => .error (.unavailable function)

/-- An empty request of a function that is available. -/
def createRequest (c : Connector) (function : String) : Except NativeError NativeRecord :=
  (c.handler function).map fun _ => .empty

def execute (c : Connector) (function : String) (request : NativeRecord) :
    Except NativeError NativeRecord :=
  match c.handler function with
  | .error e => .error e
  | .ok h => h request

/-- Runs a function: the request is written, executed, and the answer read into a new response. -/
def call (c : Connector) (request : Record) : Except ConnectorError Record :=
  let f := request.function
  if request.name != Function.requestName then .error (.notARequest f.name request.name)
  else
    match c.createRequest f.name with
    | .error e => .error (.native e)
    | .ok _ =>
      match Native.ofRecord request with
      | .error e => .error e
      | .ok native =>
        match c.execute f.name native with
        | .error e => .error (.native e)
        | .ok answer =>
          match Native.readRecord (.response f) answer with
          | (response, none) => .ok response
          | (_, some e) => .error e

end Connector

end DocWire
