/-
  DocWire.Markup.Tag — the tags of a text.

  `tags` cuts a text into its tags and what stands between them. Comments, processing instructions,
  declarations and document types are passed over; white space around text is cut off. A tag ends at the
  first `>` outside quotes, and its name at the first white space; names are not checked. What cannot be
  cut is a fault, and nothing comes after it.
-/

import DocWire.Markup.Fault
import DocWire.Text.Blank

namespace DocWire.Markup

open Text (isMarkupSpace)

/-- An opening tag as it is written: prefixed names, values with their references. -/
structure Opening where
  name : String
  attributes : List (String × String)
  /-- Whether the attributes end where the tag does; if not, what follows them is no attribute. -/
  complete : Bool
  deriving DecidableEq, Repr

/-- A piece of markup. -/
inductive Tag where
  | opening (tag : Opening)
  /-- A tag that closes itself. -/
  | empty (tag : Opening)
  | closing (name : String)
  | text (raw : String)
  /-- A section of character data. -/
  | characters
  | fault (fault : TagFault)
  deriving DecidableEq, Repr

/-! ## Attributes -/

/-- A quoted value at the front of a text, and the rest. -/
def quotedValue? : List Char → Option (List Char × List Char)
  | c :: rest =>
    if c == '\x22' || c == '\x27' then
      match rest.dropWhile (· != c) with
      | _ :: behind => some (rest.takeWhile (· != c), behind)
      | [] => none
    else none
  | [] => none

/-- An attribute at the front of a text that starts with neither white space nor its end: the name runs to
an equals sign or white space, but has at least one character. -/
def attribute? (s : List Char) : Option ((String × String) × List Char) :=
  match s with
  | [] => none
  | c :: rest =>
    let inName (d : Char) : Bool := d != '=' && !isMarkupSpace d
    match (rest.dropWhile inName).dropWhile isMarkupSpace with
    | '=' :: behind =>
      (quotedValue? (behind.dropWhile isMarkupSpace)).map fun (value, behind) =>
        ((String.ofList (c :: rest.takeWhile inName), String.ofList value), behind)
    | _ => none

/-- The attributes of a tag, and whether they reach its end. `room` is the length of the text. -/
def readAttributes : Nat → List Char → List (String × String) × Bool
  | 0, _ => ([], true)
  | room + 1, s =>
    match s.dropWhile isMarkupSpace with
    | [] => ([], true)
    | s =>
      match attribute? s with
      | none => ([], false)
      | some (attr, behind) =>
        let (rest, complete) := readAttributes room behind
        (attr :: rest, complete)

/-- The opening tag with a given content. -/
def Opening.ofContent (content : List Char) : Opening :=
  let behind := content.dropWhile (!isMarkupSpace ·)
  let (attrs, complete) := readAttributes (behind.length + 1) behind
  ⟨String.ofList (content.takeWhile (!isMarkupSpace ·)), attrs, complete⟩

/-! ## Tags -/

/-- The content of a tag up to the first `>` outside quotes, last character first, and the rest. -/
def tagContent? (quote? : Option Char) (done : List Char) : List Char → Option (List Char × List Char)
  | [] => none
  | c :: rest =>
    match quote? with
    | some q => tagContent? (if c = q then none else some q) (c :: done) rest
    | none =>
      if c = '>' then some (done, rest)
      else if c = '\x22' ∨ c = '\x27' then tagContent? (some c) (c :: done) rest
      else tagContent? none (c :: done) rest

/-- What follows the first occurrence of a text in another. -/
def behind? (mark : List Char) : List Char → Option (List Char)
  | [] => none
  | c :: rest => if mark.isPrefixOf (c :: rest) then some ((c :: rest).drop mark.length) else behind? mark rest

/-- The content of a document type up to its own `>`, last character first, and the rest; `depth` counts
the brackets that are open inside. -/
def doctypeContent? (depth : Nat) (done : List Char) : List Char → Option (List Char × List Char)
  | [] => none
  | c :: rest =>
    if c = '<' then doctypeContent? (depth + 1) (c :: done) rest
    else if c = '>' then
      match depth with
      | 0 => some (done, rest)
      | depth + 1 => doctypeContent? depth (c :: done) rest
    else doctypeContent? depth (c :: done) rest

/-- A closing tag's name: white space at its end is cut off, unless there is nothing else. -/
def closingName (reversed : List Char) : String :=
  let name := reversed.dropWhile isMarkupSpace
  String.ofList (if name.isEmpty then reversed else name).reverse

/-- The tag behind `<`, if it is one that matters, and what follows it. -/
def readTag (s : List Char) : Except TagFault (Option Tag × List Char) :=
  match s with
  | [] => .error .unclosedTag
  | '!' :: '-' :: rest =>
    match rest with
    | '-' :: body =>
      match behind? ['-', '-', '>'] body with
      | some rest => .ok (none, rest)
      | none => .error .unclosedComment
    | _ => .error .unclosedComment
  | '!' :: '[' :: rest =>
    if ['C', 'D', 'A', 'T', 'A', '['].isPrefixOf rest then
      match behind? [']', ']', '>'] (rest.drop 6) with
      | some rest => .ok (some .characters, rest)
      | none => .error .unclosedSection
    else .error .unclosedSection
  | '!' :: rest =>
    match rest with
    | c :: _ =>
      if c = 'D' ∨ c = 'd' then
        match doctypeContent? 0 [] rest with
        | none => .error .unclosedDoctype
        | some (reversed, behind) =>
          let content := reversed.reverse
          if (content.take 7).map Char.toUpper != ['D', 'O', 'C', 'T', 'Y', 'P', 'E'] then
            .error .unclosedDoctype
          else if (content.drop 7).all isMarkupSpace then .error .missingDoctypeName
          else .ok (none, behind)
      else .error .badDeclaration
    | [] => .error .badDeclaration
  | '?' :: rest =>
    match rest with
    | '>' :: _ => .error .unclosedInstruction
    | _ =>
      match behind? ['?', '>'] rest with
      | some rest => .ok (none, rest)
      | none => .error .unclosedInstruction
  | '/' :: rest =>
    match tagContent? none [] rest with
    | some (reversed, rest) => .ok (some (.closing (closingName reversed)), rest)
    | none => .error .unclosedTag
  | _ =>
    match tagContent? none [] s with
    | some ('/' :: reversed, rest) => .ok (some (.empty (.ofContent reversed.reverse)), rest)
    | some (reversed, rest) => .ok (some (.opening (.ofContent reversed.reverse)), rest)
    | none => .error .unclosedTag

/-- A text between tags, unless there is none. -/
def textTag (text : List Char) : List Tag :=
  if text.isEmpty then [] else [.text (String.ofList (Text.trimBoth isMarkupSpace text))]

/-- The tags of a text from here on. `room` exceeds the number of characters. -/
def tagsFrom : Nat → List Char → List Tag
  | 0, _ => []
  | room + 1, s =>
    let s := s.dropWhile isMarkupSpace
    textTag (s.takeWhile (· != '<')) ++
      match s.dropWhile (· != '<') with
      | [] => []
      | _ :: s =>
        match readTag s with
        | .error fault => [.fault fault]
        | .ok (some tag, rest) => tag :: tagsFrom room rest
        | .ok (none, rest) => tagsFrom room rest

def tags (s : List Char) : List Tag := tagsFrom (s.length + 1) s

end DocWire.Markup
