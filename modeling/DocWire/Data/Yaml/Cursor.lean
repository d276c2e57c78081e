/-
  DocWire.Data.Yaml.Cursor — a place in a YAML text.

  Layout carries meaning, so a place knows its column. A line ends with a line feed, a carriage return or
  both, or with one of the separators that Unicode adds; the first four kinds count as a line feed in a
  text that runs over several lines.
-/

namespace DocWire.Yaml

/-- The characters that a text may hold at all. -/
def isPermitted (c : Char) : Bool :=
  c == '\t' || c == '\n' || c == '\r' || (' ' ≤ c && c ≤ '~') || c == '\u0085' ||
    ('\u00a0' ≤ c && c ≤ '\ufffd') || 0x10000 ≤ c.toNat

def isBlank (c : Char) : Bool := c == ' ' || c == '\t'

def isBreak (c : Char) : Bool :=
  c == '\n' || c == '\r' || c == '\u0085' || c == '\u2028' || c == '\u2029'

/-- Whether a word ends before `s`: at a blank, at a line break, or with the text. -/
def endsWord (s : List Char) : Bool :=
  match s with
  | [] => true
  | c :: _ => isBlank c || isBreak c

structure Cursor where
  rest : List Char
  /-- The number of characters in the rest. -/
  left : Nat
  /-- The number of bytes before the place, in UTF-8. -/
  index : Nat
  /-- The number of characters before the place in its line. -/
  column : Nat
  line : Nat
  deriving Repr

namespace Cursor

def start (s : List Char) : Cursor := ⟨s, s.length, 0, 0, 0⟩

def next? (c : Cursor) : Option Char := c.rest.head?

/-- The place behind the next `n` characters, which stand in the same line. -/
def advance (c : Cursor) : Nat → Cursor
  | 0 => c
  | n + 1 =>
    match c.rest with
    | [] => c
    | x :: rest => advance ⟨rest, c.left - 1, c.index + x.utf8Size, c.column + 1, c.line⟩ n

def advanceWhile (p : Char → Bool) (c : Cursor) : Cursor := c.advance (c.rest.takeWhile p).length

/-- The line break at a place, as it counts in a text, and the start of the next line. -/
def nextLine? (c : Cursor) : Option (Char × Cursor) :=
  match c.rest with
  | '\r' :: '\n' :: rest => some ('\n', ⟨rest, c.left - 2, c.index + 2, 0, c.line + 1⟩)
  | x :: rest =>
    if isBreak x then
      some (if x == '\r' || x == '\u0085' then '\n' else x, ⟨rest, c.left - 1, c.index + x.utf8Size, 0, c.line + 1⟩)
    else none
  | [] => none

/-- Whether three hyphens or points stand at the start of the line by themselves. -/
def atDocumentMark (c : Cursor) : Bool :=
  c.column == 0 &&
    match c.rest with
    | '-' :: '-' :: '-' :: rest => endsWord rest
    | '.' :: '.' :: '.' :: rest => endsWord rest
    | _ => false

/-- The place behind the blanks and the comment that may end a line; nothing else may stand there. -/
def lineEnd? (c : Cursor) : Option Cursor :=
  let c := c.advanceWhile isBlank
  let c := if c.next? == some '#' then c.advanceWhile (!isBreak ·) else c
  match c.nextLine? with
  | some (_, next) => some next
  | none => if c.rest.isEmpty then some c else none

end Cursor

end DocWire.Yaml
