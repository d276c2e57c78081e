/-
  DocWire.Schema.Key — the keys of IDoc message types.

  A message type is known by five parts; the last three may be empty. The id of a key is its parts in
  their markup form, joined by slashes, so it can stand in a URI. It reads back where no part holds `_-`
  and the first two are not empty.
-/

import DocWire.Name

namespace DocWire

structure TypeKey where
  /-- The repository that the metadata came from. -/
  repository : String
  basicType : String
  extension : String
  systemRelease : String
  applicationRelease : String
  deriving DecidableEq, Repr

/-- The pieces of a text between separators. -/
def splitAtChar (separator : Char) : List Char → List (List Char)
  | [] => [[]]
  | c :: rest =>
    if c = separator then [] :: splitAtChar separator rest
    else match splitAtChar separator rest with
      | [] => [[c]]
      | piece :: pieces => (c :: piece) :: pieces

namespace TypeKey

def parts (k : TypeKey) : List String :=
  [k.repository, k.basicType, k.extension, k.systemRelease, k.applicationRelease]

/-- The message-type id. -/
def id (k : TypeKey) : String := "/".intercalate (k.parts.map Name.escape)

/-- The key with a given id: five parts, the first two not empty. -/
def ofId? (id : String) : Option TypeKey :=
  match splitAtChar '/' id.toList with
  | [repository, basicType, extension, systemRelease, applicationRelease] =>
    if repository.isEmpty || basicType.isEmpty then none
    else
      let part (s : List Char) : String := String.ofList (Name.unescapeChars s)
      some ⟨part repository, part basicType, part extension, part systemRelease, part applicationRelease⟩
  | _ => none

/-- The key of a segment type within the message type. -/
def segmentKey (k : TypeKey) (segmentType : String) : String := k.id ++ ":" ++ segmentType

/-- Order by the parts, the first that differs deciding. -/
def le (a b : TypeKey) : Bool :=
  match (a.parts.zip b.parts).find? fun (x, y) => x != y with
  | some (x, y) => x < y
  | none => true

end TypeKey

end DocWire
