/-
  DocWire.Data.Yaml.Token — YAML texts as tokens.

  Tokens spell out what layout says: where a block collection begins and ends, and what is a key. A key is
  known only by the colon behind it, so every place where one could begin is remembered, and the tokens for
  it are put in there when the colon comes. Such a place is given up when its line ends or 1024 bytes have
  passed; where the layout leaves no choice but a key, that is a fault.

  A tag is a string of bytes: it may be written with escapes, and these need not spell a text.
-/

import DocWire.Data.Yaml.Scalar

namespace DocWire.Yaml

abbrev Tag := List UInt8

/-- How a scalar is written. -/
inductive Style where
  | plain
  /-- In a block that keeps its line breaks. -/
  | literal
  | other
  deriving DecidableEq, Repr

inductive Token where
  | documentStart
  | documentEnd
  /-- A declaration of the version, which has to be a known one. -/
  | version
  /-- What a tag handle stands for. -/
  | handle (handle : String) (stem : Tag)
  | blockSequence
  | blockMapping
  | blockEnd
  | flowSequence
  | flowSequenceEnd
  | flowMapping
  | flowMappingEnd
  | item
  | comma
  | key
  | value
  | reference (anchor : String)
  | anchor (name : String)
  | tag (handle : String) (suffix : Tag)
  | scalar (style : Style) (text : String)
  deriving DecidableEq, Repr

/-! ## Names and tags -/

def isWordChar (c : Char) : Bool := c.isAlphanum || c == '_' || c == '-'

/-- The name of an anchor behind its indicator. -/
def anchorName? (s : List Char) : Option (List Char) :=
  let name := s.takeWhile isWordChar
  let behind := s.drop name.length
  if !name.isEmpty &&
      (endsWord behind || behind.head?.any fun c => ['?', ':', ',', ']', '\x7d', '%', '@', '\x60'].contains c)
  then some name else none

/-- The byte that an escape at the front of a text stands for, and the rest: a percent sign and two
hexadecimal digits. -/
def escapedByte? (s : List Char) : Option (UInt8 × List Char) :=
  match s with
  | '%' :: a :: b :: rest => (Number.digitsIn? 16 [a, b]).map fun n => (UInt8.ofNat n, rest)
  | _ => none

/-- How many bytes a character has that starts with `b`. -/
def sequenceLength? (b : UInt8) : Option Nat :=
  if b < 0x80 then some 1
  else if b < 0xc0 then none
  else if b < 0xe0 then some 2
  else if b < 0xf0 then some 3
  else if b < 0xf8 then some 4
  else none

/-- Escapes for the bytes that follow the first of a character. -/
def escapedTail? : Nat → List Char → Option (List UInt8 × List Char)
  | 0, s => some ([], s)
  | n + 1, s =>
    match escapedByte? s with
    | some (b, rest) =>
      if 0x80 ≤ b && b < 0xc0 then (escapedTail? n rest).map fun (bytes, rest) => (b :: bytes, rest) else none
    | none => none

/-- The escapes for all bytes of one character. -/
def escapedBytes? (s : List Char) : Option (List UInt8 × List Char) :=
  match escapedByte? s with
  | some (b, rest) =>
    (sequenceLength? b).bind fun n => (escapedTail? (n - 1) rest).map fun (bytes, rest) => (b :: bytes, rest)
  | none => none

/-- The characters that may stand in a tag; between angle brackets there are a few more. -/
def isTagChar (bracketed : Bool) (c : Char) : Bool :=
  isWordChar c ||
    [';', '/', '?', ':', '@', '&', '=', '+', '$', '.', '!', '~', '*', '\x27', '(', ')'].contains c ||
    (bracketed && [',', '[', ']'].contains c)

/-- The bytes that the tag characters at the front of a text stand for, and the rest. -/
def tagBytes? (bracketed : Bool) : Nat → List Char → Option (List UInt8 × List Char)
  | 0, _ => none
  | room + 1, s =>
    match s with
    | [] => some ([], [])
    | '%' :: _ =>
      (escapedBytes? s).bind fun (bytes, rest) =>
        (tagBytes? bracketed room rest).map fun (more, rest) => (bytes ++ more, rest)
    | c :: rest =>
      if isTagChar bracketed c then
        (tagBytes? bracketed room rest).map fun (more, rest) => (UInt8.ofNat c.toNat :: more, rest)
      else some ([], s)

/-- A part of a tag at the front of a text, and the rest; a byte of zero ends what counts of it. -/
def tagPart? (bracketed : Bool) (s : List Char) : Option (Tag × List Char) :=
  (tagBytes? bracketed (s.length + 1) s).map fun (bytes, rest) => (bytes.takeWhile (· != 0), rest)

/-- A part of a tag that is not left out. -/
def someTagPart? (bracketed : Bool) (s : List Char) : Option (Tag × List Char) :=
  (tagPart? bracketed s).filter fun (_, rest) => rest.length < s.length

/-- The tag at the front of a text, and the rest. -/
def tagToken? (s : List Char) : Option (Token × List Char) :=
  match s with
  | '!' :: '<' :: rest =>
    match someTagPart? true rest with
    | some (bytes, '>' :: rest) => some (.tag "" bytes, rest)
    | _ => none
  | '!' :: rest =>
    let word := rest.takeWhile isWordChar
    match rest.drop word.length with
    | '!' :: behind =>
      (someTagPart? false behind).map fun (suffix, rest) =>
        (.tag (String.ofList ('!' :: word ++ ['!'])) suffix, rest)
    | _ =>
      (tagPart? false rest).map fun (suffix, rest) =>
        (if suffix.isEmpty then .tag "" "!".toUTF8.toList else .tag "!" suffix, rest)
  | _ => none

/-- The digits at the front of a text: a number of at most nine. -/
def versionNumber? (s : List Char) : Option (Nat × List Char) :=
  let digits := s.takeWhile Number.isDigit
  if digits.length ≤ 9 then (Number.digitsIn? 10 digits).map fun n => (n, s.drop digits.length) else none

/-- A declaration behind its percent sign, and what follows it in the line. -/
def directive? (s : List Char) : Option (Token × List Char) :=
  let name := s.takeWhile isWordChar
  let behind := (s.drop name.length).dropWhile isBlank
  if !endsWord (s.drop name.length) then none
  else if name == ['Y', 'A', 'M', 'L'] then
    match versionNumber? behind with
    | some (major, '.' :: rest) =>
      match versionNumber? rest with
      | some (minor, rest) => if major == 1 && (minor == 1 || minor == 2) then some (.version, rest) else none
      | none => none
    | _ => none
  else if name == ['T', 'A', 'G'] then
    match behind with
    | '!' :: rest =>
      let word := rest.takeWhile isWordChar
      let (handle, rest) := match rest.drop word.length with
        | '!' :: rest => ('!' :: word ++ ['!'], rest)
        | rest => ('!' :: word, rest)
      if (handle.length == 1 || handle.getLast? == some '!') && rest.head?.any isBlank then
        match someTagPart? true (rest.dropWhile isBlank) with
        | some (stem, after) => if endsWord after then some (.handle (String.ofList handle) stem, after) else none
        | none => none
      else none
    | _ => none
  else none

/-! ## Layout -/

/-- A place where a key could begin. -/
structure PossibleKey where
  start : Cursor
  /-- The number of tokens before it. -/
  position : Nat
  required : Bool

/-- A text that is read up to a place. -/
structure Layout where
  cursor : Cursor
  tokens : Array Token
  /-- The first column inside the entries of the innermost block collection, and 0 outside all. -/
  margin : Nat
  /-- The margins around it, the innermost first. -/
  margins : List Nat
  /-- Where a key could begin, in every open flow collection and outside, the innermost first. -/
  keys : List (Option PossibleKey)
  /-- Whether a key may begin here. -/
  keyAllowed : Bool

namespace Layout

def start (s : List Char) : Layout := ⟨.start s, #[], 0, [], [none], true⟩

def inFlow (s : Layout) : Bool := 1 < s.keys.length

def push (s : Layout) (t : Token) : Layout := { s with tokens := s.tokens.push t }

/-- Puts tokens before those from a position on. -/
def insert (s : Layout) (position : Nat) (ts : Array Token) : Layout :=
  { s with tokens := s.tokens.extract 0 position ++ ts ++ s.tokens.extract position s.tokens.size }

def skip (s : Layout) (n : Nat) : Layout := { s with cursor := s.cursor.advance n }

/-! ### Keys -/

/-- Gives up the place where a key could begin. -/
def dropKey (s : Layout) : Option Layout :=
  match s.keys with
  | some k :: outer => if k.required then none else some { s with keys := none :: outer }
  | _ => some s

/-- Remembers that a key could begin here, if it may. -/
def markKey (s : Layout) : Option Layout :=
  if s.keyAllowed then
    s.dropKey.map fun s =>
      let key : PossibleKey :=
        ⟨s.cursor, s.tokens.size, !s.inFlow && s.margin == s.cursor.column + 1⟩
      { s with keys := some key :: s.keys.tail }
  else some s

/-- Whether a key that could begin at a place can no longer end before `c`. -/
def isPast (k : PossibleKey) (c : Cursor) : Bool := k.start.line < c.line || k.start.index + 1024 < c.index

/-- Gives up the places that are past. -/
def expireKeys (s : Layout) : Option Layout :=
  let past (k? : Option PossibleKey) : Bool := k?.any (isPast · s.cursor)
  if s.keys.any fun k? => past k? && k?.any (·.required) then none
  else some { s with keys := s.keys.map fun k? => if past k? then none else k? }

/-! ### Blocks -/

/-- Opens a block collection at a column if it lies inside the innermost one. -/
def openBlock (s : Layout) (column position : Nat) (t : Token) : Layout :=
  if !s.inFlow && s.margin ≤ column then
    { s.insert position #[t] with margin := column + 1, margins := s.margin :: s.margins }
  else s

/-- Closes the block collections whose margin lies beyond a limit. -/
def closeMargins (limit : Nat) (tokens : Array Token) (margin : Nat) : List Nat → Array Token × Nat × List Nat
  | [] => (tokens, margin, [])
  | outer :: rest =>
    if limit < margin then closeMargins limit (tokens.push .blockEnd) outer rest else (tokens, margin, outer :: rest)

def closeBlocks (s : Layout) (limit : Nat) : Layout :=
  if s.inFlow then s
  else
    let (tokens, margin, margins) := closeMargins limit s.tokens s.margin s.margins
    { s with tokens, margin, margins }

/-! ### Tokens -/

/-- Passes over blanks, comments and line ends, and over a byte-order mark at the start of a line. Where a
key may begin, a tab is no blank. -/
def skipBlanks : Nat → Layout → Layout
  | 0, s => s
  | room + 1, s =>
    let c := if s.cursor.column == 0 && s.cursor.next? == some '\ufeff' then s.cursor.advance 1 else s.cursor
    let tabs := s.inFlow || !s.keyAllowed
    let c := c.advanceWhile fun x => x == ' ' || (tabs && x == '\t')
    let c := if c.next? == some '#' then c.advanceWhile (!isBreak ·) else c
    match c.nextLine? with
    | some (_, next) => skipBlanks room { s with cursor := next, keyAllowed := s.keyAllowed || !s.inFlow }
    | none => { s with cursor := c }

/-- A declaration or a document mark ends all blocks. -/
def boundary (s : Layout) : Option Layout :=
  (s.closeBlocks 0).dropKey.map fun s => { s with keyAllowed := false }

def directive (s : Layout) : Option Layout :=
  match s.boundary, directive? (s.cursor.rest.drop 1) with
  | some s, some (t, behind) =>
    let c := s.cursor.advance (s.cursor.rest.length - behind.length)
    c.lineEnd?.map fun c => { s.push t with cursor := c }
  | _, _ => none

def documentMark (s : Layout) (t : Token) : Option Layout := s.boundary.map fun s => (s.push t).skip 3

def openFlow (s : Layout) (t : Token) : Option Layout :=
  s.markKey.map fun s => { (s.push t).skip 1 with keys := none :: s.keys, keyAllowed := true }

def closeFlow (s : Layout) (t : Token) : Option Layout :=
  s.dropKey.map fun s =>
    { (s.push t).skip 1 with keys := if s.inFlow then s.keys.tail else s.keys, keyAllowed := false }

def comma (s : Layout) : Option Layout :=
  s.dropKey.map fun s => { (s.push .comma).skip 1 with keyAllowed := true }

/-- Opens a block collection for an indicator that stands before its content. -/
def indicator (s : Layout) (block : Token) : Option Layout :=
  if s.inFlow then some s
  else if s.keyAllowed then some (s.openBlock s.cursor.column s.tokens.size block)
  else none

def item (s : Layout) : Option Layout :=
  ((s.indicator .blockSequence).bind dropKey).map fun s => { (s.push .item).skip 1 with keyAllowed := true }

def key (s : Layout) : Option Layout :=
  ((s.indicator .blockMapping).bind dropKey).map fun s =>
    { (s.push .key).skip 1 with keyAllowed := !s.inFlow }

/-- A colon: what was a possible key is one now. -/
def value (s : Layout) : Option Layout :=
  let found : Option Layout := match s.keys with
    | some k :: outer =>
      let s := (s.insert k.position #[.key]).openBlock k.start.column k.position .blockMapping
      some { s with keys := none :: outer, keyAllowed := false }
    | _ => (s.indicator .blockMapping).map fun s => { s with keyAllowed := !s.inFlow }
  found.map fun s => (s.push .value).skip 1

def named (s : Layout) (token : String → Token) : Option Layout :=
  match s.markKey, anchorName? (s.cursor.rest.drop 1) with
  | some s, some name =>
    some { (s.push (token (String.ofList name))).skip (name.length + 1) with keyAllowed := false }
  | _, _ => none

def tag (s : Layout) : Option Layout :=
  match s.markKey, tagToken? s.cursor.rest with
  | some s, some (t, behind) =>
    let s := { (s.push t).skip (s.cursor.rest.length - behind.length) with keyAllowed := false }
    if endsWord s.cursor.rest || (s.inFlow && s.cursor.next? == some ',') then some s else none
  | _, _ => none

def block (s : Layout) (literal : Bool) : Option Layout :=
  match s.dropKey, readBlock literal s.margin s.cursor with
  | some s, some (text, c) =>
    some { s.push (.scalar (if literal then .literal else .other) (String.ofList text)) with
      cursor := c, keyAllowed := true }
  | _, _ => none

def quoted (s : Layout) (single : Bool) : Option Layout :=
  match s.markKey, readQuoted single s.cursor with
  | some s, some (text, c) =>
    some { s.push (.scalar .other (String.ofList text)) with cursor := c, keyAllowed := false }
  | _, _ => none

def plain (s : Layout) : Option Layout :=
  match s.markKey, readPlain s.inFlow s.margin s.cursor with
  | some s, some (text, broken, c) =>
    some { s.push (.scalar .plain (String.ofList text)) with cursor := c, keyAllowed := broken }
  | _, _ => none

/-- Reads the token that starts with `x` before `rest`. -/
def readToken (s : Layout) (x : Char) (rest : List Char) : Option Layout :=
  if s.cursor.column == 0 && x == '%' then s.directive
  else if s.cursor.atDocumentMark then s.documentMark (if x == '-' then .documentStart else .documentEnd)
  else if x == '[' then s.openFlow .flowSequence
  else if x == '\x7b' then s.openFlow .flowMapping
  else if x == ']' then s.closeFlow .flowSequenceEnd
  else if x == '\x7d' then s.closeFlow .flowMappingEnd
  else if x == ',' then s.comma
  else if x == '-' && endsWord rest then s.item
  else if x == '?' && (s.inFlow || endsWord rest) then s.key
  else if x == ':' && (s.inFlow || endsWord rest) then s.value
  else if x == '*' then s.named .reference
  else if x == '&' then s.named .anchor
  else if x == '!' then s.tag
  else if x == '|' && !s.inFlow then s.block true
  else if x == '>' && !s.inFlow then s.block false
  else if x == '\x27' then s.quoted true
  else if x == '\x22' then s.quoted false
  else if startsPlain s.inFlow x rest then s.plain
  else none

/-- Reads the rest of a text. -/
def readTokens : Nat → Layout → Option (List Token)
  | 0, _ => none
  | room + 1, s =>
    match (s.skipBlanks (s.cursor.left + 1)).expireKeys with
    | none => none
    | some s =>
      match s.cursor.rest with
      | [] => (s.closeBlocks 0).dropKey.map (·.tokens.toList)
      | x :: rest =>
        match (s.closeBlocks (s.cursor.column + 1)).readToken x rest with
        | none => none
        | some s => readTokens room s

end Layout

/-- The tokens of a text, if it holds no character that is not permitted. -/
def tokens? (s : List Char) : Option (List Token) :=
  if s.all isPermitted then Layout.readTokens (s.length + 1) (.start s) else none

end DocWire.Yaml
