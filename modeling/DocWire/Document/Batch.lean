/-
  DocWire.Document.Batch — lists of documents of one message type.
-/

import DocWire.Document.Basic

namespace DocWire

structure Batch where
  schema : MessageType
  documents : List Document

namespace Batch

def new (schema : MessageType) : Batch := ⟨schema, []⟩

def key (b : Batch) : TypeKey := b.schema.key

/-- Appends a new document. -/
def add (b : Batch) (creation : Stamp) : Batch :=
  { b with documents := b.documents ++ [.new b.schema creation] }

/-- Appends a document of the same message type. -/
def push (b : Batch) (d : Document) : Except ModelError Batch :=
  if d.key = b.key then .ok { b with documents := b.documents ++ [d] }
  else .error (.schemaMismatch b.key.id d.key.id)

end Batch

end DocWire
