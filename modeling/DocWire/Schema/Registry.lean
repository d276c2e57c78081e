/-
  DocWire.Schema.Registry — the compiled metadata catalogue and its look-ups.

  A registry is compiled from a definition as a whole: structures, then functions, then message types; the
  first fault refuses all of it. Afterwards a look-up fails for no other reason than an unknown name.
-/

import DocWire.Schema.Compile
import DocWire.Schema.Authored
import DocWire.Data.Json
import DocWire.Data.Yaml

namespace DocWire

structure Registry where
  messageTypes : List MessageType
  structures : List Shape
  functions : List Function

namespace Registry

def compile (d : Definition) : Except RegistryError Registry :=
  match Compile.firstRepeated? [] (d.structures.map (·.name)) with
  | some name => .error (.duplicate (.shape name))
  | none =>
    match Compile.compileStructures d.structures d.structures [] with
    | .error e => .error e
    | .ok shapes =>
      match Compile.compileFunctions d.structures shapes [] d.functions with
      | .error e => .error e
      | .ok functions =>
        (Compile.compileMessageTypes [] d.messageTypes).map fun messageTypes =>
          ⟨messageTypes, shapes, functions⟩

/-! ## Look-ups -/

def messageType (r : Registry) (key : TypeKey) : Except RegistryError MessageType :=
  match r.messageTypes.find? (·.key == key) with
  | some m => .ok m
  | none => .error (.unknownMessageType key.id)

def messageTypeById (r : Registry) (id : String) : Except RegistryError MessageType :=
  match TypeKey.ofId? id with
  | some key => r.messageType key
  | none => .error (.invalidKey id)

/-- The segment type with a key; of several message types that have one, the last. -/
def segment? (r : Registry) (key : String) : Option SegmentType :=
  r.messageTypes.reverse.findSome? (·.segment? key)

def structure? (r : Registry) (name : String) : Option Shape := r.structures.find? (·.name == name)

def function (r : Registry) (name : String) : Except RegistryError Function :=
  match r.functions.find? (·.name == name) with
  | some f => .ok f
  | none => .error (.unknownFunction name)

/-! ## Texts -/

def ofJson (text : String) : Except RegistryError Registry :=
  match (Json.read? text).bind (Authored.readDefinition Json.source) with
  | some d => compile d
  | none => .error .json

def ofYaml (text : String) : Except RegistryError Registry :=
  match (Yaml.read? text).bind (·.get? (Authored.readDefinition Yaml.source)) with
  | some d => compile d
  | none => .error .yaml

/-- What stands behind the last point of a file's name, unless the name starts with it. -/
def extension? (path : String) : Option String :=
  let name := (splitAtChar '/' path.toList).getLast?.getD []
  match (splitAtChar '.' name).reverse with
  | last :: before :: others =>
    if others.isEmpty && before.isEmpty then none else some (String.ofList last)
  | _ => none

/-- The registry of a file, given its path and its bytes. The bytes come first: a file that cannot be
read or is no UTF-8 text is refused whatever its name. -/
def ofFile (path : String) (content : Option (List UInt8)) : Except RegistryError Registry :=
  match content.bind fun bytes => String.fromUTF8? ⟨bytes.toArray⟩ with
  | none => .error .io
  | some text =>
    match extension? path with
    | some "yaml" | some "yml" => ofYaml text
    | some "json" => ofJson text
    | _ => .error (.unsupportedFormat path)

end Registry

end DocWire
