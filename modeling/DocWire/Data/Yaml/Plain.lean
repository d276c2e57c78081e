/-
  DocWire.Data.Yaml.Plain — what YAML scalars without quotes stand for.

  `null`, `true` and numbers need no quotes, and whatever is none of them is a text. A sign may stand before
  a whole number in base 2, 8, 10 or 16. Digits behind a superfluous zero are no number, and a number beyond
  the range of binary64 is none either.
-/

import DocWire.Data.Node
import DocWire.Data.Yaml.Node
import DocWire.Number.Binary64

namespace DocWire.Yaml

def isNull (s : String) : Bool := ["~", "null", "Null", "NULL"].contains s

def bool? (s : String) : Option Bool :=
  if ["true", "True", "TRUE"].contains s then some true
  else if ["false", "False", "FALSE"].contains s then some false
  else none

/-- Whether digits stand behind a superfluous zero. -/
def hasSpareZero (s : List Char) : Bool :=
  match s with
  | '0' :: d :: rest => Number.isDigit d && rest.all Number.isDigit
  | _ => false

/-- A whole number without a sign. -/
def wholeDigits? (s : List Char) : Option Nat :=
  match s with
  | '0' :: 'x' :: rest => Number.digitsIn? 16 rest
  | '0' :: 'o' :: rest => Number.digitsIn? 8 rest
  | '0' :: 'b' :: rest => Number.digitsIn? 2 rest
  | _ => if hasSpareZero s then none else Number.digitsIn? 10 s

/-- A natural number; a plus sign may stand before it. -/
def natural? (s : String) : Option Nat :=
  match s.toList with
  | '+' :: rest => wholeDigits? rest
  | s => wholeDigits? s

/-- A natural number behind a minus sign. -/
def negative? (s : String) : Option Nat :=
  match s.toList with
  | '-' :: rest => wholeDigits? rest
  | _ => none

/-- The exponent of a number: a mark, a sign and digits, or nothing. -/
def exponent? (s : List Char) : Option Int :=
  match s with
  | [] => some 0
  | mark :: rest =>
    if mark != 'e' && mark != 'E' then none
    else
      match rest with
      | '+' :: digits => (Number.digitsIn? 10 digits).map fun n => (n : Int)
      | '-' :: digits => (Number.digitsIn? 10 digits).map fun n => -(n : Int)
      | digits => (Number.digitsIn? 10 digits).map fun n => (n : Int)

/-- Whether digits, with a point among them or not and an exponent or none, write a number within the range
of binary64. -/
def isMagnitude (s : List Char) : Bool :=
  let whole := s.takeWhile Number.isDigit
  let (fraction, rest) := match s.dropWhile Number.isDigit with
    | '.' :: rest => (rest.takeWhile Number.isDigit, rest.dropWhile Number.isDigit)
    | rest => ([], rest)
  match exponent? rest with
  | some exponent =>
    !(whole.isEmpty && fraction.isEmpty) &&
      Magnitude.ofDecimal (Number.digitsValue (whole ++ fraction)) (fraction.length - exponent) != .infinite
  | none => false

/-- Whether a scalar is a number that may have places behind the point. -/
def isReal (s : String) : Bool :=
  let specials := [".inf", ".Inf", ".INF", "+.inf", "+.Inf", "+.INF", "-.inf", "-.Inf", "-.INF", ".nan",
    ".NaN", ".NAN"]
  specials.contains s ||
    match s.toList with
    | '+' :: rest | '-' :: rest => isMagnitude rest
    | s => isMagnitude s

/-- The whole number that a scalar is; beyond 64 bits it can only be skipped, and beyond 128 bits it is
none. -/
def integer? (s : String) : Option DocWire.Node :=
  match natural? s, negative? s with
  | some n, _ =>
    if n < Nat.pow 2 64 then some (.natural n) else if n < Nat.pow 2 128 then some .skippable else none
  | none, some n =>
    if n ≤ Nat.pow 2 63 then some (.negative n) else if n ≤ Nat.pow 2 127 then some .skippable else none
  | none, none => none

/-- What a scalar without quotes or tag stands for. -/
def untagged (s : String) : DocWire.Node :=
  if s.isEmpty || isNull s then .null
  else
    match bool? s, integer? s with
    | some b, _ => .bool b
    | none, some node => node
    | none, none =>
      let digits := match s.toList with
        | '+' :: rest | '-' :: rest => rest
        | s => s
      if !hasSpareZero digits && isReal s then .real s else .text s

/-! ## Tags -/

/-- A tag of the core schema. -/
def coreTag (name : String) : Tag := ("tag:yaml.org,2002:" ++ name).toUTF8.toList

def isLocal (tag : Tag) : Bool := tag.head? == some 33

/-- The name of a variant that a tag selects: what stands behind its exclamation mark. -/
def variant? (tag? : Option Tag) : Option String :=
  match tag? with
  | some (mark :: name) => if mark == 33 then String.fromUTF8? ⟨name.toArray⟩ else none
  | _ => none

namespace Scalar

/-- Whether a scalar is read for a type without regard to how it is written: it has no quotes, or stands in
a block and has the type's tag. -/
def isOpen (s : Scalar) (name : String) : Bool :=
  s.style == .plain || (s.style == .literal && s.tag? == some (coreTag name))

/-- Whether a scalar is left out. -/
def isEmpty (s : Scalar) : Bool := s.style == .plain && s.text.isEmpty

/-- A scalar as data. A tag of the core schema says its type, if it is of that type; one that selects a
variant allows no type at all. -/
def toNode? (s : Scalar) : Option DocWire.Node :=
  let node := if s.style == .plain then untagged s.text else .text s.text
  match s.tag? with
  | none => some node
  | some tag =>
    if (variant? s.tag?).isSome then none
    else if tag == coreTag "bool" then (bool? s.text).map .bool
    else if tag == coreTag "int" then integer? s.text
    else if tag == coreTag "float" then (if isReal s.text then some (.real s.text) else none)
    else if tag == coreTag "null" then (if isNull s.text then some .null else none)
    else if isLocal tag then some node
    else some (.text s.text)

end Scalar

end DocWire.Yaml
