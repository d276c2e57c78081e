/-
  DocWire.Data.Json — JSON texts, read strictly and written compactly.

  A text holds one value. Nothing is forgiven: no comments, no trailing commas, no superfluous zeros, no
  control characters in strings, no byte-order mark. Some values are well formed and can only be skipped: a
  string in which half of a surrogate pair stands alone, a record with such a name, and a number beyond the
  range of binary64.
-/

import DocWire.Data.Source
import DocWire.Number.Binary64

namespace DocWire.Json

/-! ## Reading -/

def isSpace (c : Char) : Bool := c == ' ' || c == '\t' || c == '\n' || c == '\r'

def skipSpace (s : List Char) : List Char := s.dropWhile isSpace

def hexUnit? (a b c d : Char) : Option Nat := Number.digitsIn? 16 [a, b, c, d]

def isHighSurrogate (unit : Nat) : Bool := 0xd800 ≤ unit && unit < 0xdc00

def isLowSurrogate (unit : Nat) : Bool := 0xdc00 ≤ unit && unit < 0xe000

/-- The character that a backslash and `c` stand for. -/
def shortEscape? (c : Char) : Option Char :=
  if c == '\x22' || c == '\\' || c == '/' then some c
  else if c == 'b' then some '\x08'
  else if c == 'f' then some '\x0c'
  else if c == 'n' then some '\n'
  else if c == 'r' then some '\r'
  else if c == 't' then some '\t'
  else none

/-- A string on the way: its characters so far, last one first, the half of a surrogate pair that waits
for the other, and whether all pairs were complete. -/
structure StringState where
  done : List Char
  waiting : Option Nat
  paired : Bool

namespace StringState

def start : StringState := ⟨[], none, true⟩

/-- A half that still waits is left alone. -/
def settle (s : StringState) : StringState := ⟨s.done, none, s.paired && s.waiting.isNone⟩

def push (s : StringState) (c : Char) : StringState :=
  let s := s.settle
  { s with done := c :: s.done }

/-- A code given in hexadecimal: a character, or half of a pair. -/
def pushUnit (s : StringState) (unit : Nat) : StringState :=
  if isHighSurrogate unit then { s.settle with waiting := some unit }
  else if isLowSurrogate unit then
    match s.waiting with
    | some high =>
      ⟨Char.ofNat (0x10000 + (high - 0xd800) * 0x400 + (unit - 0xdc00)) :: s.done, none, s.paired⟩
    | none => { s with paired := false }
  else s.push (Char.ofNat unit)

/-- The text, if all its pairs were complete. -/
def text? (s : StringState) : Option String :=
  let s := s.settle
  if s.paired then some (String.ofList s.done.reverse) else none

end StringState

/-- Reads a string behind its opening quote; gives it with what follows the closing quote. -/
def readString (state : StringState) : List Char → Option (Option String × List Char)
  | [] => none
  | '\x22' :: rest => some (state.text?, rest)
  | '\\' :: 'u' :: a :: b :: c :: d :: rest =>
    match hexUnit? a b c d with
    | some unit => readString (state.pushUnit unit) rest
    | none => none
  | '\\' :: c :: rest =>
    match shortEscape? c with
    | some e => readString (state.push e) rest
    | none => none
  | c :: rest => if c.toNat < 0x20 then none else readString (state.push c) rest

/-! ### Numbers -/

/-- The parts of a number: the digits before and behind the point, and the exponent where one is written. -/
structure NumberText where
  isNegative : Bool
  whole : List Char
  fraction : List Char
  exponent? : Option Int

/-- An exponent behind its mark: a sign, and at least one digit. -/
def readExponent? (s : List Char) : Option (Int × List Char) :=
  let (isNegative, s) := match s with
    | '+' :: rest => (false, rest)
    | '-' :: rest => (true, rest)
    | _ => (false, s)
  let digits := s.takeWhile Number.isDigit
  if digits.isEmpty then none
  else
    let n : Int := Number.digitsValue digits
    some (if isNegative then -n else n, s.dropWhile Number.isDigit)

/-- The number at the front of a text, and the rest. -/
def readNumber? (s : List Char) : Option (NumberText × List Char) :=
  let (isNegative, s) := match s with
    | '-' :: rest => (true, rest)
    | _ => (false, s)
  let whole := s.takeWhile Number.isDigit
  let fraction? := match s.dropWhile Number.isDigit with
    | '.' :: rest =>
      let digits := rest.takeWhile Number.isDigit
      if digits.isEmpty then none else some (digits, rest.dropWhile Number.isDigit)
    | rest => some ([], rest)
  if whole.isEmpty || (whole.head? == some '0' && 1 < whole.length) then none
  else
    match fraction? with
    | none => none
    | some (fraction, rest) =>
      match rest with
      | 'e' :: rest | 'E' :: rest =>
        (readExponent? rest).map fun (exponent, rest) => (⟨isNegative, whole, fraction, some exponent⟩, rest)
      | _ => some (⟨isNegative, whole, fraction, none⟩, rest)

/-- Reads digits onto a significand while it stays below `2^64`; gives it with the number of digits left
over. -/
def pushDigits (significand : Nat) : List Char → Nat × Nat
  | [] => (significand, 0)
  | c :: rest =>
    let next := significand * 10 + (c.toNat - 48)
    if next < Nat.pow 2 64 then pushDigits next rest else (significand, rest.length + 1)

namespace NumberText

/-- The significand, of no more digits than fit, and its exponent. -/
def scientific (t : NumberText) : Nat × Int :=
  let (significand, dropped) := pushDigits 0 t.whole
  let (significand, left) := pushDigits significand t.fraction
  (significand, dropped - (t.fraction.length - left : Nat) + t.exponent?.getD 0)

/-- Whether the number lies within the range of binary64: the significand and the power of ten are rounded,
and so is their product. -/
def isInRange (t : NumberText) : Bool :=
  let (significand, exponent) := t.scientific
  if significand = 0 || exponent < 0 then true
  else if 308 < exponent then false
  else
    match Magnitude.ofDecimal significand 0, Magnitude.ofDecimal 1 (-exponent) with
    | .finite a, .finite b => Magnitude.roundQuotient (a * b) Magnitude.one != .infinite
    | _, _ => false

/-- The characters of the number. -/
def chars (t : NumberText) : List Char :=
  (if t.isNegative then ['-'] else []) ++ t.whole ++ (if t.fraction.isEmpty then [] else '.' :: t.fraction) ++
    match t.exponent? with
    | some exponent => 'e' :: Number.intChars exponent
    | none => []

/-- What the number is: a whole number of 64 bits, or another one. -/
def toNode (t : NumberText) : Node :=
  let whole := Number.digitsValue t.whole
  let other : Node := if t.isInRange then .real (String.ofList t.chars) else .skippable
  if !t.fraction.isEmpty || t.exponent?.isSome then other
  else if t.isNegative then (if 0 < whole && whole ≤ Nat.pow 2 63 then .negative whole else other)
  else if whole < Nat.pow 2 64 then .natural whole
  else other

end NumberText

/-! ### Values -/

/-- A string as data. -/
def stringNode : Option String → Node
  | some text => .text text
  | none => .skippable

/-- A record; the last of its members is given first. -/
def recordNode (members : List (Option String × Node)) : Node :=
  match members.reverse.mapM fun (name, value) => name.map (·, value) with
  | some members => .record members
  | none => .skippable

mutual

/-- Reads a value; `depth` bounds the nesting and is the length of the text. -/
def readValue : Nat → List Char → Option (Node × List Char)
  | 0, _ => none
  | depth + 1, s =>
    match skipSpace s with
    | 'n' :: 'u' :: 'l' :: 'l' :: rest => some (.null, rest)
    | 't' :: 'r' :: 'u' :: 'e' :: rest => some (.bool true, rest)
    | 'f' :: 'a' :: 'l' :: 's' :: 'e' :: rest => some (.bool false, rest)
    | '\x22' :: rest =>
      (readString .start rest).map fun (text, rest) => (stringNode text, rest)
    | '[' :: rest =>
      match skipSpace rest with
      | ']' :: rest => some (.list [], rest)
      | rest => readItems depth [] rest
    | '\x7b' :: rest =>
      match skipSpace rest with
      | '\x7d' :: rest => some (.record [], rest)
      | rest => readMembers depth [] rest
    | rest => (readNumber? rest).map fun (number, rest) => (number.toNode, rest)

/-- Reads the items of a list, separated by commas, up to its closing bracket. -/
def readItems : Nat → List Node → List Char → Option (Node × List Char)
  | 0, _, _ => none
  | depth + 1, done, s =>
    match readValue depth s with
    | none => none
    | some (item, rest) =>
      match skipSpace rest with
      | ',' :: rest => readItems depth (item :: done) rest
      | ']' :: rest => some (.list (item :: done).reverse, rest)
      | _ => none

/-- Reads the members of a record, separated by commas, up to its closing brace. -/
def readMembers : Nat → List (Option String × Node) → List Char → Option (Node × List Char)
  | 0, _, _ => none
  | depth + 1, done, s =>
    match skipSpace s with
    | '\x22' :: rest =>
      match readString .start rest with
      | some (name, rest) =>
        match skipSpace rest with
        | ':' :: rest =>
          match readValue depth rest with
          | none => none
          | some (value, rest) =>
            let done := (name, value) :: done
            match skipSpace rest with
            | ',' :: rest => readMembers depth done rest
            | '\x7d' :: rest => some (recordNode done, rest)
            | _ => none
        | _ => none
      | none => none
    | _ => none

end

/-- The value that a text holds. -/
def read? (text : String) : Option Node :=
  let s := text.toList
  match readValue (2 * s.length + 1) s with
  | some (value, rest) => if (skipSpace rest).isEmpty then some value else none
  | none => none

/-- How deep the rest of a tagged record may nest, the record itself counted: a text may nest 127 levels,
and four are open around such a record. -/
def taggedRoom : Nat := 123

/-- A tagged record: the tag stands in one of its members, or as the first item of a list. -/
def tagged? (tag : String) (node : Node) : Option (String × Node) :=
  let parts? : Option (Node × Node) := match node with
    | .record members =>
      match members.partition (·.1 == tag) with
      | ([(_, value)], rest) => some (value, .record rest)
      | _ => none
    | .list (value :: rest) => some (value, .list rest)
    | _ => none
  parts?.bind fun (value, rest) => if rest.isHeld taggedRoom then value.text?.map (·, rest) else none

def isNull : Node → Bool
  | .null => true
  | _ => false

/-- Data as it is read from a text. -/
def source : Source Node Option := { Node.held with choice := Node.choice? isNull, tagged := tagged? }

/-! ## Writing -/

/-- One character of a string: quote, backslash and control characters are escaped. -/
def escapeChar (c : Char) : List Char :=
  if c == '\x22' || c == '\\' then ['\\', c]
  else if c.toNat < 0x10 then ['\\', 'u', '0', '0', '0'] ++ Nat.toDigits 16 c.toNat
  else if c.toNat < 0x20 then ['\\', 'u', '0', '0'] ++ Nat.toDigits 16 c.toNat
  else [c]

/-- A text as a string in quotes, written behind `out`. -/
def appendString (out : String) (s : String) : String :=
  (s.toList.foldl (fun out c => (escapeChar c).foldl String.push out) (out.push '\x22')).push '\x22'

mutual

/-- A value without any white space, written behind `out`. -/
def append (out : String) : Node → String
  | .null | .skippable => out ++ "null"
  | .bool b => out ++ (if b then "true" else "false")
  | .natural n => out ++ toString n
  | .negative n => out ++ "-" ++ toString n
  | .real text => out ++ text
  | .text s => appendString out s
  | .list items => (appendItems (out.push '[') true items).push ']'
  | .record members => (appendMembers (out.push '\x7b') true members).push '\x7d'
  | .mapping pairs => (appendPairs (out.push '\x7b') true pairs).push '\x7d'

def appendItems (out : String) (first : Bool) : List Node → String
  | [] => out
  | item :: rest => appendItems (append (if first then out else out.push ',') item) false rest

def appendMembers (out : String) (first : Bool) : List (String × Node) → String
  | [] => out
  | (name, value) :: rest =>
    appendMembers (append ((appendString (if first then out else out.push ',') name).push ':') value) false rest

def appendPairs (out : String) (first : Bool) : List (Node × Node) → String
  | [] => out
  | (key, value) :: rest =>
    appendPairs (append ((append (if first then out else out.push ',') key).push ':') value) false rest

end

def write (value : Node) : String := append "" value

end DocWire.Json
