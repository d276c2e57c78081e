/-
  DocWire.Xml.Encode — documents and parameter sets as XML elements.

  Segments and members are elements with the message's prefix; their set fields are attributes, in the
  order of declaration. What only holds others (`rootSegment`, `segmentChildren`, `document`, `row`) has
  no prefix. Every element states the path of the one that encloses it, so that the tree can be followed
  without a schema:

    //@rootSegment
    //@rootSegment/@segmentChildren/@LEVEL1.0
    //@rootSegment/@segmentChildren/@LEVEL1.0/@segmentChildren/@LEVEL2.0
-/

import DocWire.Document.Batch
import DocWire.Markup.Written
import DocWire.Parameters.Record
import DocWire.Xml.Error
import DocWire.Xml.Options

namespace DocWire.Xml

open Markup (Written)

/-- The path of a part of what `parent` names; the message itself is `/`. -/
def childPath (parent feature : String) : String :=
  if parent == "/" then "//@" ++ feature else parent ++ "/@" ++ feature

abbrev Attributes := List (String × String)

/-- The attributes for the set fields of a segment or record. -/
def fieldAttributes (entries : List (FieldDecl × Value)) : Except XmlError Attributes :=
  entries.mapM fun (decl, value) =>
    match Coercion.encode decl.format value with
    | .ok wire => .ok (Name.escape decl.name, wire)
    | .error e => .error (.encode decl.name e)

/-- An element whose children are wrapped in one element, unless there are none. -/
def wrapped (path : String) (children : List Written) : List Written :=
  if children.isEmpty then [] else [.mk "segmentChildren" [("parent", path)] children]

/-! ## Documents -/

mutual

/-- A segment at `path`, enclosed by what is at `parentPath`. -/
def encodeSegment (pre docPath parentPath path : String) : Tree Segment → Except XmlError Written
  | .node s children =>
    match fieldAttributes s.entries with
    | .error e => .error e
    | .ok fields =>
      (encodeSegments pre docPath path [] children).map fun below =>
        .mk (pre ++ ":" ++ Name.escape s.type.name)
          (("parent", parentPath) :: ("document", docPath) :: fields) (wrapped path below)

/-- The segments below `path`, numbered for each segment type by those `before`. -/
def encodeSegments (pre docPath path : String) (before : List String) :
    List (Tree Segment) → Except XmlError (List Written)
  | [] => .ok []
  | t :: rest =>
    let name := t.value.type.name
    let own := childPath path "segmentChildren" ++ "/@" ++ Name.escape name ++ "." ++
      toString (before.count name)
    match encodeSegment pre docPath path own t with
    | .error e => .error e
    | .ok e => (encodeSegments pre docPath path (name :: before) rest).map (e :: ·)

end

/-- The element of the root segment. -/
def encodeRoot (pre docPath : String) : Tree Segment → Except XmlError Written
  | .node s children =>
    match fieldAttributes s.entries with
    | .error e => .error e
    | .ok fields =>
      let path := childPath docPath "rootSegment"
      (encodeSegments pre docPath path [] children).map fun below =>
        .mk "rootSegment" (("parent", docPath) :: ("document", docPath) :: fields) (wrapped path below)

/-- The header fields and the creation stamp. -/
def headerAttributes (d : Document) : Attributes :=
  (d.header.entries.map fun (f, value) => (f.attributeName, value)) ++
    [(creationDateAttribute, d.creation.date.compact), (creationTimeAttribute, d.creation.time.compact)]

/-- A document as an element of a given name, behind given attributes. -/
def encodeDocumentAs (name : String) (attributes : Attributes) (docPath : String) (d : Document) :
    Except XmlError Written :=
  (encodeRoot (messagePrefix d.key.basicType) docPath d.tree).map fun root =>
    .mk name (attributes ++ headerAttributes d) [root]

/-- The declarations of the namespaces of a message type. -/
def documentNamespaces (o : Options) (key : TypeKey) : Attributes :=
  [("xmlns:" ++ Options.idocPrefix, o.idocNamespace),
   ("xmlns:" ++ messagePrefix key.basicType, o.messageNamespace key)]

def encodeDocument (o : Options) (d : Document) : Except XmlError Written :=
  encodeDocumentAs (Options.idocPrefix ++ ":Document") (documentNamespaces o d.key) "/" d

/-- The documents of a list from number `i` on. -/
def encodeListed (i : Nat) : List Document → Except XmlError (List Written)
  | [] => .ok []
  | d :: rest =>
    match encodeDocumentAs "document" [("parent", "/")] (childPath "/" ("document." ++ toString i)) d with
    | .error e => .error e
    | .ok e => (encodeListed (i + 1) rest).map (e :: ·)

def encodeBatch (o : Options) (b : Batch) : Except XmlError Written :=
  (encodeListed 0 b.documents).map
    (.mk (Options.idocPrefix ++ ":DocumentList") (documentNamespaces o b.key))

/-! ## Parameter sets -/

mutual

/-- A record at `path` as an element of a given name, behind given attributes. -/
def encodeRecordAs (pre name : String) (attributes : Attributes) (path : String) :
    Record → Except XmlError Written
  | .mk function shape slots =>
    match fieldAttributes (Record.mk function shape slots).entries with
    | .error e => .error e
    | .ok fields =>
      (encodeSlots pre path (shape.members.map Member.name) slots).map
        (.mk name (attributes ++ fields))

/-- The nested records and tables among the slots, whose members have the given names. -/
def encodeSlots (pre path : String) (names : List String) : List (Slot Record) → Except XmlError (List Written)
  | [] => .ok []
  | slot :: rest =>
    match encodeSlot pre path (Name.escape (names.headD "")) slot with
    | .error e => .error e
    | .ok es => (encodeSlots pre path names.tail rest).map (es ++ ·)

def encodeSlot (pre path name : String) : Slot Record → Except XmlError (List Written)
  | .absent => .ok []
  | .value _ => .ok []
  | .nested r =>
    (encodeRecordAs pre (pre ++ ":" ++ name) [("parent", path)] (childPath path name) r).map ([·])
  | .table rows =>
    (encodeRows pre (childPath path name) 0 rows).map fun es =>
      [.mk (pre ++ ":" ++ name) [("parent", path)] es]

/-- The rows of a table from number `i` on. -/
def encodeRows (pre path : String) (i : Nat) : List Record → Except XmlError (List Written)
  | [] => .ok []
  | r :: rest =>
    match encodeRecordAs pre "row" [("parent", path)] (childPath path ("row." ++ toString i)) r with
    | .error e => .error e
    | .ok e => (encodeRows pre path (i + 1) rest).map (e :: ·)

end

/-- The declarations of the namespaces of a function. -/
def functionNamespaces (o : Options) (function : String) : Attributes :=
  [("xmlns:" ++ Options.rfcPrefix, o.rfcNamespace),
   ("xmlns:" ++ messagePrefix function, o.functionNamespace function)]

def encodeRecord (o : Options) (r : Record) : Except XmlError Written :=
  encodeRecordAs (messagePrefix r.function.name) (Options.rfcPrefix ++ ":" ++ r.name)
    (functionNamespaces o r.function.name) "/" r

/-! ## Texts -/

def render (o : Options) (e : Written) : String := e.text o.indent o.declaration

def documentText (o : Options) (d : Document) : Except XmlError String :=
  (encodeDocument o d).map (render o)

def batchText (o : Options) (b : Batch) : Except XmlError String := (encodeBatch o b).map (render o)

def recordText (o : Options) (r : Record) : Except XmlError String :=
  (encodeRecord o r).map (render o)

end DocWire.Xml
