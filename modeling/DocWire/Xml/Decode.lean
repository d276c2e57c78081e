/-
  DocWire.Xml.Decode — documents and parameter sets read from XML elements.

  The message type is found from the namespaces that the top element declares; the first that lies below
  the base decides. Segments and members may carry that namespace or none. `parent`, `document` and the
  attributes of the creation stamp are passed over; every other attribute must name a header field or a
  declared field, in local or qualified form.
-/

import DocWire.Document.Batch
import DocWire.Markup.Document
import DocWire.Parameters.Record
import DocWire.Schema.Registry
import DocWire.Xml.Error
import DocWire.Xml.Options

namespace DocWire.Xml

open Markup (Attribute Element Head)

/-! ## Attributes -/

def unexpected (expected : String) (found : Head) : XmlError := .unexpectedElement expected found.display

def unexpectedAttribute (h : Head) (a : Attribute) : XmlError :=
  .unexpectedAttribute h.display (Markup.expandedName a.ns a.name)

/-- Attributes that say nothing of their own. -/
def isAdvisory (a : Attribute) : Bool := a.name == "parent" || a.name == "document"

/-- Gives every attribute that is not advisory to `set`, in order; none may be in a namespace. -/
def applyAttributes {σ : Type} (set : σ → String → String → Except ModelError σ) (h : Head) (state : σ) :
    Except XmlError σ :=
  h.attributes.foldlM (fun state a =>
    if a.ns.isSome then .error (unexpectedAttribute h a)
    else if isAdvisory a then .ok state
    else (set state (Name.unescape a.name) a.value).mapError .model) state

/-- Refuses attributes that are not advisory. -/
def checkAdvisory (h : Head) : Except XmlError Unit :=
  match h.attributes.find? fun a => a.ns.isSome || !isAdvisory a with
  | some a => .error (unexpectedAttribute h a)
  | none => .ok ()

/-- Elements in the message's namespace or in none. -/
def inNamespace (ns : String) (h : Head) : Bool :=
  match h.ns with
  | some own => own == ns
  | none => true

/-! ## The top element -/

/-- The top element must have one of the names in the namespace of the message kind. -/
def checkTop (h : Head) (ns : String) (names : List String) : Except XmlError Unit :=
  if h.ns == some ns && names.contains h.name then .ok ()
  else .error (unexpected (" or ".intercalate (names.map (Markup.expandedName (some ns)))) h)

/-- The message type, with its namespace. -/
def topMessageType (r : Registry) (o : Options) (h : Head) : Except XmlError (MessageType × String) :=
  match h.declarations.findSome? fun (_, uri) => (o.messageId? uri).map fun id => (id, uri) with
  | none => .error (.missingNamespace .document o.base)
  | some (id, uri) => ((r.messageTypeById id).mapError .registry).map fun m => (m, uri)

/-- The function, with its namespace. -/
def topFunction (r : Registry) (o : Options) (h : Head) : Except XmlError (Function × String) :=
  match h.declarations.findSome? fun (_, uri) => (o.functionName? uri).map fun name => (name, uri) with
  | none => .error (.missingNamespace .parameters o.base)
  | some (name, uri) => ((r.function name).mapError .registry).map fun f => (f, uri)

/-! ## Documents -/

/-- The header fields that the attributes of a document set. -/
def readHeader (h : Head) (d : Document) : Except XmlError Document :=
  h.attributes.foldlM (fun d a =>
    if a.ns.isSome then .error (unexpectedAttribute h a)
    else if isAdvisory a || a.name == creationDateAttribute || a.name == creationTimeAttribute then .ok d
    else match HeaderField.ofAttribute? a.name with
      | some f => .ok (d.setHeader f a.value)
      | none => .error (unexpectedAttribute h a)) d

mutual

/-- Reads the elements below that of the segment `id`. -/
def readWrappers (ns : String) (d : Document) (id : Nat) : List Element → Except XmlError Document
  | [] => .ok d
  | .mk h children :: rest =>
    if !h.isNamed none "segmentChildren" then .error (unexpected "segmentChildren" h)
    else
      match checkAdvisory h with
      | .error e => .error e
      | .ok () =>
        match readSegments ns d id children with
        | .error e => .error e
        | .ok d => readWrappers ns d id rest

/-- Adds segments under the segment `id`. -/
def readSegments (ns : String) (d : Document) (id : Nat) : List Element → Except XmlError Document
  | [] => .ok d
  | .mk h children :: rest =>
    if !inNamespace ns h then .error (unexpected ("segment in " ++ ns) h)
    else
      match d.addChild id (Name.unescape h.name) with
      | .error e => .error (.model e)
      | .ok (d, child) =>
        match applyAttributes (fun d name text => d.setWire child name text) h d with
        | .error e => .error e
        | .ok d =>
          match readWrappers ns d child children with
          | .error e => .error e
          | .ok d => readSegments ns d id rest

end

/-- The one element that a document holds. -/
def rootElement (e : Element) : Except XmlError Element :=
  match e.children with
  | [] => .error (.unexpectedElement "rootSegment" ("end of " ++ e.display))
  | [root] => if root.head.isNamed none "rootSegment" then .ok root else .error (unexpected "rootSegment" root.head)
  | _ :: extra :: _ => .error (unexpected ("end of " ++ e.display) extra.head)

/-- A document of a message type with a namespace. -/
def readDocument (schema : MessageType) (ns : String) (creation : Stamp) (e : Element) :
    Except XmlError Document :=
  match readHeader e.head (.new schema creation) with
  | .error e => .error e
  | .ok d =>
    match rootElement e with
    | .error e => .error e
    | .ok root =>
      match applyAttributes (fun d name text => d.setWire Document.rootId name text) root.head d with
      | .error e => .error e
      | .ok d => readWrappers ns d Document.rootId root.children

def decodeDocument (r : Registry) (o : Options) (creation : Stamp) (e : Element) :
    Except XmlError Document :=
  match checkTop e.head o.idocNamespace ["Document"] with
  | .error e => .error e
  | .ok () =>
    match topMessageType r o e.head with
    | .error e => .error e
    | .ok (schema, ns) => readDocument schema ns creation e

/-- Appends the documents of a list. -/
def readListed (ns : String) (creation : Stamp) (b : Batch) : List Element → Except XmlError Batch
  | [] => .ok b
  | e :: rest =>
    if !e.head.isNamed none "document" then .error (unexpected "document" e.head)
    else
      match readDocument b.schema ns creation e with
      | .error e => .error e
      | .ok d =>
        match b.push d with
        | .error e => .error (.model e)
        | .ok b => readListed ns creation b rest

def decodeBatch (r : Registry) (o : Options) (creation : Stamp) (e : Element) : Except XmlError Batch :=
  match checkTop e.head o.idocNamespace ["DocumentList"] with
  | .error e => .error e
  | .ok () =>
    match checkAdvisory e.head with
    | .error e => .error e
    | .ok () =>
      match topMessageType r o e.head with
      | .error e => .error e
      | .ok (schema, ns) => readListed ns creation (.new schema) e.children

/-! ## Parameter sets -/

mutual

/-- Fills a record from its element. -/
def readRecord (ns : String) (r : Record) : Element → Except XmlError Record
  | .mk h children =>
    match applyAttributes Record.setWire h r with
    | .error e => .error e
    | .ok r => readMembers ns r children

/-- Reads nested structures and tables into a record. -/
def readMembers (ns : String) (r : Record) : List Element → Except XmlError Record
  | [] => .ok r
  | .mk h children :: rest =>
    if !inNamespace ns h then .error (unexpected ("member in " ++ ns) h)
    else
      let name := Name.unescape h.name
      match r.shape.member? r.ns name with
      | some (.nested _ _ _) =>
        match r.openNested name with
        | .error e => .error (.model e)
        | .ok (i, inner) =>
          match readRecord ns inner (.mk h children) with
          | .error e => .error e
          | .ok inner => readMembers ns (r.putSlot i (.nested inner)) rest
      | some (.table _ _ _) =>
        match checkAdvisory h with
        | .error e => .error e
        | .ok () =>
          match r.openTable name with
          | .error e => .error (.model e)
          | .ok (i, row, rows) =>
            match readRows ns (.blank r.function row) children with
            | .error e => .error e
            | .ok added => readMembers ns (r.putSlot i (.table (rows ++ added))) rest
      | _ => .error (unexpected ("structure or table member of " ++ r.name) h)

/-- The rows of a table, each filled from a blank one. -/
def readRows (ns : String) (blank : Record) : List Element → Except XmlError (List Record)
  | [] => .ok []
  | .mk h children :: rest =>
    if !h.isNamed none "row" then .error (unexpected "row" h)
    else
      match readRecord ns blank (.mk h children) with
      | .error e => .error e
      | .ok row => (readRows ns blank rest).map (row :: ·)

end

def decodeRecord (r : Registry) (o : Options) (e : Element) : Except XmlError Record :=
  match checkTop e.head o.rfcNamespace [Function.requestName, Function.responseName] with
  | .error e => .error e
  | .ok () =>
    match topFunction r o e.head with
    | .error e => .error e
    | .ok (f, ns) =>
      readRecord ns (if e.head.name == Function.requestName then .request f else .response f) e

/-! ## Texts -/

/-- The element of a text; one byte-order mark in front is dropped, the markup drops another. -/
def elementOfText (text : String) : Except XmlError Element :=
  (Element.ofText (Markup.dropMark text.toList)).mapError .malformed

/-- The text that bytes stand for. -/
def textOfBytes (bytes : List UInt8) : Except XmlError String :=
  match String.fromUTF8? ⟨bytes.toArray⟩ with
  | some text => .ok text
  | none => .error (.malformed .notUtf8)

def documentOfText (r : Registry) (o : Options) (creation : Stamp) (text : String) :
    Except XmlError Document :=
  (elementOfText text).bind (decodeDocument r o creation)

def batchOfText (r : Registry) (o : Options) (creation : Stamp) (text : String) : Except XmlError Batch :=
  (elementOfText text).bind (decodeBatch r o creation)

def recordOfText (r : Registry) (o : Options) (text : String) : Except XmlError Record :=
  (elementOfText text).bind (decodeRecord r o)

end DocWire.Xml
