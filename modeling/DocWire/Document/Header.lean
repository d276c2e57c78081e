/-
  DocWire.Document.Header — the control header of a document.

  Every document carries a control record: partner, address and routing data, serialization and status
  flags. A field of it has two names, one in markup and one in the control record of a connector. The
  fields have an order, and a header lists what is set in that order. The date and time of creation are
  no header fields.
-/

import DocWire.Data.Source
import DocWire.Text.Quoted

namespace DocWire

inductive HeaderField where
  | archiveKey
  | client
  /-- `1` is outbound, `2` inbound. -/
  | direction
  | ediMessage
  | ediMessageGroup
  | ediMessageType
  | ediStandardFlag
  | ediStandardVersion
  | ediTransmissionFile
  | idocCompoundType
  | idocNumber
  | idocSapRelease
  | idocType
  | idocTypeExtension
  | messageCode
  | messageFunction
  | messageType
  | outputMode
  | recipientAddress
  | recipientLogicalAddress
  | recipientPartnerFunction
  | recipientPartnerNumber
  | recipientPartnerType
  | recipientPort
  | senderAddress
  | senderLogicalAddress
  | senderPartnerFunction
  | senderPartnerNumber
  | senderPartnerType
  | senderPort
  | serialization
  | status
  /-- Not empty marks a test message. -/
  | testFlag
  deriving DecidableEq, Repr

namespace HeaderField

/-- The fields in their order. -/
def all : List HeaderField :=
  [.archiveKey, .client, .direction, .ediMessage, .ediMessageGroup, .ediMessageType, .ediStandardFlag,
   .ediStandardVersion, .ediTransmissionFile, .idocCompoundType, .idocNumber, .idocSapRelease, .idocType,
   .idocTypeExtension, .messageCode, .messageFunction, .messageType, .outputMode, .recipientAddress,
   .recipientLogicalAddress, .recipientPartnerFunction, .recipientPartnerNumber, .recipientPartnerType,
   .recipientPort, .senderAddress, .senderLogicalAddress, .senderPartnerFunction, .senderPartnerNumber,
   .senderPartnerType, .senderPort, .serialization, .status, .testFlag]

/-- The name of the field as an attribute in markup. -/
def attributeName : HeaderField → String
  | .archiveKey => "archiveKey"
  | .client => "client"
  | .direction => "direction"
  | .ediMessage => "ediMessage"
  | .ediMessageGroup => "ediMessageGroup"
  | .ediMessageType => "ediMessageType"
  | .ediStandardFlag => "ediStandardFlag"
  | .ediStandardVersion => "ediStandardVersion"
  | .ediTransmissionFile => "ediTransmissionFile"
  | .idocCompoundType => "idocCompoundType"
  | .idocNumber => "idocNumber"
  | .idocSapRelease => "idocSapRelease"
  | .idocType => "idocType"
  | .idocTypeExtension => "idocTypeExtension"
  | .messageCode => "messageCode"
  | .messageFunction => "messageFunction"
  | .messageType => "messageType"
  | .outputMode => "outputMode"
  | .recipientAddress => "recipientAddress"
  | .recipientLogicalAddress => "recipientLogicalAddress"
  | .recipientPartnerFunction => "recipientPartnerFunction"
  | .recipientPartnerNumber => "recipientPartnerNumber"
  | .recipientPartnerType => "recipientPartnerType"
  | .recipientPort => "recipientPort"
  | .senderAddress => "senderAddress"
  | .senderLogicalAddress => "senderLogicalAddress"
  | .senderPartnerFunction => "senderPartnerFunction"
  | .senderPartnerNumber => "senderPartnerNumber"
  | .senderPartnerType => "senderPartnerType"
  | .senderPort => "senderPort"
  | .serialization => "serialization"
  | .status => "status"
  | .testFlag => "testFlag"

/-- The name of the field in the control record of a connector. -/
def controlName : HeaderField → String
  | .archiveKey => "ARCKEY"
  | .client => "MANDT"
  | .direction => "DIRECT"
  | .ediMessage => "REFMES"
  | .ediMessageGroup => "REFGRP"
  | .ediMessageType => "STDMES"
  | .ediStandardFlag => "STD"
  | .ediStandardVersion => "STDVRS"
  | .ediTransmissionFile => "REFINT"
  | .idocCompoundType => "DOCTYP"
  | .idocNumber => "DOCNUM"
  | .idocSapRelease => "DOCREL"
  | .idocType => "IDOCTYP"
  | .idocTypeExtension => "CIMTYP"
  | .messageCode => "MESCOD"
  | .messageFunction => "MESFCT"
  | .messageType => "MESTYP"
  | .outputMode => "OUTMOD"
  | .recipientAddress => "RCVSAD"
  | .recipientLogicalAddress => "RCVLAD"
  | .recipientPartnerFunction => "RCVPFC"
  | .recipientPartnerNumber => "RCVPRN"
  | .recipientPartnerType => "RCVPRT"
  | .recipientPort => "RCVPOR"
  | .senderAddress => "SNDSAD"
  | .senderLogicalAddress => "SNDLAD"
  | .senderPartnerFunction => "SNDPFC"
  | .senderPartnerNumber => "SNDPRN"
  | .senderPartnerType => "SNDPRT"
  | .senderPort => "SNDPOR"
  | .serialization => "SERIAL"
  | .status => "STATUS"
  | .testFlag => "TEST"

def ofAttribute? (name : String) : Option HeaderField := all.find? (·.attributeName == name)

/-- The message for a name that no field has. -/
def unknownMessage (name : String) : String := "unknown header field: " ++ Text.quote name

theorem mem_all (f : HeaderField) : f ∈ all := by cases f <;> decide

end HeaderField

/-- The attributes of the creation stamp. -/
def creationDateAttribute : String := "creationDate"

def creationTimeAttribute : String := "creationTime"

/-- The names of the creation stamp in a control record. -/
def creationDateControl : String := "CREDAT"

def creationTimeControl : String := "CRETIM"

/-- The fields that are set, each with its text. -/
structure Header where
  get : HeaderField → Option String

namespace Header

def empty : Header := ⟨fun _ => none⟩

def set (h : Header) (field : HeaderField) (value : String) : Header :=
  ⟨fun f => if f = field then some value else h.get f⟩

def unset (h : Header) (field : HeaderField) : Header :=
  ⟨fun f => if f = field then none else h.get f⟩

/-- The fields that are set, in their order. -/
def entries (h : Header) : List (HeaderField × String) :=
  HeaderField.all.filterMap fun f => (h.get f).map fun value => (f, value)

def size (h : Header) : Nat := h.entries.length

@[simp] theorem get_set (h : Header) (f g : HeaderField) (v : String) :
    (h.set f v).get g = if g = f then some v else h.get g := rfl

@[simp] theorem get_unset (h : Header) (f g : HeaderField) :
    (h.unset f).get g = if g = f then none else h.get g := rfl

/-- Reads a header from a record whose `values` hold texts by attribute names; of two values for one
field the later stays. -/
def ofNode? (node : Node) : Option Header := do
  let m ← Node.members? ["values"] node
  match m "values" with
  | some (.record values) =>
    values.foldlM (fun h (name, value) => do
      return h.set (← HeaderField.ofAttribute? name) (← value.text?)) empty
  | _ => none

def toNode (h : Header) : Node :=
  .record [("values", .record (h.entries.map fun (f, value) => (f.attributeName, .text value)))]

end Header

end DocWire
