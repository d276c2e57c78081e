/-
  DocWire.Field.Coercion — field values and their wire strings.

  `encode` writes a value of a field's kind as the field's wire string, `decode` reads one. Both depend on
  the field's format alone. Text is cut to the declared length; nothing else is ever altered, and what
  does not fit is refused with the cause.

    text      as it is, cut to the length when one is declared
    decimal   all digits, as many places as the scale says; checked against length and places
    float     the fewest digits that read back, with an exponent
    integer   sign and digits; checked against the range of the type
    date      eight digits, year month day
    time      six digits, hour minute second
    bytes     two hexadecimal digits to a byte

  `decodeWire` is the entry for fields: an empty wire string is an empty text or no bytes, and leaves a
  field of any other kind unset.
-/

import DocWire.Field.Value

namespace DocWire

/-- What coercion needs to know of a field. -/
structure Format where
  type : DataType
  /-- Characters of a text, digits of a decimal, bytes of a raw field; 0 is unbounded. -/
  length : Nat
  /-- Digits behind the point. -/
  decimals : Nat
  deriving DecidableEq, Repr

namespace Coercion

/-! ## Causes of refusal -/

/-- Why a wire string is no value. -/
inductive TextFault where
  | decimal (fault : Decimal.Fault)
  | integer (fault : Number.IntegerFault)
  | dateForm
  | noSuchDay
  | timeForm
  | noSuchTime
  | bytes (fault : Hex.Fault)
  deriving DecidableEq, Repr

def TextFault.message : TextFault → String
  | .decimal fault => fault.message
  | .integer fault => fault.message
  | .dateForm => "expected 8 digits YYYYMMDD"
  | .noSuchDay => "not a calendar date"
  | .timeForm => "expected 6 digits HHMMSS"
  | .noSuchTime => "not a time of day"
  | .bytes fault => fault.message

/-- Which limit a value exceeds. -/
inductive RangeFault where
  /-- The scale is beyond what is written out in digits. -/
  | exponent
  | places (found declared : Nat)
  | wholeDigits (found declared : Nat)
  | float
  | integer (least greatest : Int)
  | year
  | subSecond
  | byteLength (declared : Nat)
  deriving DecidableEq, Repr

def RangeFault.message : RangeFault → String
  | .exponent => "exponent too large"
  | .places found declared =>
    toString found ++ " fractional digits exceed declared " ++ toString declared
  | .wholeDigits found declared =>
    toString found ++ " integer digits exceed declared " ++ toString declared
  | .float => "not representable as a float"
  | .integer least greatest => "must be within " ++ toString least ++ "..=" ++ toString greatest
  | .year => "year must be within 0..=9999"
  | .subSecond => "sub-second precision is not representable"
  | .byteLength declared => "declared length is " ++ toString declared ++ " bytes"

end Coercion

inductive CoercionError where
  | invalidText (type : DataType) (text : String) (fault : Coercion.TextFault)
  | outOfRange (type : DataType) (value : String) (fault : Coercion.RangeFault)
  | kindMismatch (type : DataType) (expected actual : ValueKind)
  deriving DecidableEq, Repr

namespace CoercionError

/-- The type of the field that refused. -/
def type : CoercionError → DataType
  | .invalidText t _ _ => t
  | .outOfRange t _ _ => t
  | .kindMismatch t _ _ => t

def message : CoercionError → String
  | .invalidText t text fault =>
    t.tag ++ " text " ++ Text.quote text ++ " is invalid: " ++ fault.message
  | .outOfRange t value fault => t.tag ++ " value " ++ value ++ " is out of range: " ++ fault.message
  | .kindMismatch t expected actual =>
    t.tag ++ " expects a " ++ expected.name ++ " value, got " ++ actual.name

/-- The message under the heading that callers outside a field put before it. -/
def headedMessage (e : CoercionError) : String := "coercion error: " ++ e.message

end CoercionError

namespace Coercion

/-! ## Limits -/

/-- The first `length` characters; all of them when no length is declared. -/
def cutText (length : Nat) (s : String) : String :=
  if length = 0 then s else String.ofList (s.toList.take length)

/-- Digits before and behind the point of a value written without superfluous zeros. -/
def digitCounts (d : Decimal) : Nat × Nat :=
  let n := d.normal
  if n.mantissa = 0 then (0, 0)
  else if 0 ≤ n.scale then (n.digits.length - n.scale.natAbs, n.scale.natAbs)
  else (n.digits.length + n.scale.natAbs, 0)

/-- The largest scale, in either direction, that is written out in digits. -/
def maxPlainScale : Nat := 4096

/-- Which limit of a fixed-point field a decimal exceeds. -/
def decimalFault? (f : Format) (d : Decimal) : Option RangeFault :=
  if maxPlainScale < d.scale.natAbs then some .exponent
  else if f.length = 0 then none
  else
    let (whole, places) := digitCounts d
    if f.decimals < places then some (.places places f.decimals)
    else if f.length - f.decimals < whole then some (.wholeDigits whole (f.length - f.decimals))
    else none

def floatFault? (d : Decimal) : Option RangeFault :=
  if (Binary64.ofDecimal d).isFinite then none else some .float

def integerFault? (t : DataType) (n : Int) : Option RangeFault :=
  match t.integerRange? with
  | none => none
  | some (least, greatest) =>
    if least ≤ n ∧ n ≤ greatest then none else some (.integer least greatest)

def dateFault? (d : Date) : Option RangeFault :=
  if 0 ≤ d.year ∧ d.year ≤ 9999 then none else some .year

def timeFault? (t : Time) : Option RangeFault :=
  if t.nano = 0 then none else some .subSecond

/-- Only raw fields of fixed length limit their bytes. -/
def bytesFault? (f : Format) (count : Nat) : Option RangeFault :=
  if f.type = .raw ∧ 0 < f.length ∧ f.length < count then some (.byteLength f.length) else none

/-- Which limit of the field a value of its kind exceeds. -/
def rangeFault? (f : Format) : Value → Option RangeFault
  | .text _ => none
  | .integer n => integerFault? f.type n
  | .decimal d => if f.type = .float then floatFault? d else decimalFault? f d
  | .date d => dateFault? d
  | .time t => timeFault? t
  | .bytes b => bytesFault? f b.length

/-- How a refused value is shown: a time with its fraction, bytes by their number. -/
def refusedText : Value → String
  | .time t => t.text
  | .bytes b => toString b.length ++ " bytes"
  | v => v.display

/-- Refuses a value that exceeds a limit of the field. -/
def checkRange (f : Format) (v : Value) : Except CoercionError Unit :=
  match rangeFault? f v with
  | some fault => .error (.outOfRange f.type (refusedText v) fault)
  | none => .ok ()

/-! ## Writing -/

/-- The wire string of a value that the field takes. -/
def wireText (f : Format) : Value → String
  | .text s => cutText f.length s
  | .integer n => String.ofList (Number.intChars n)
  | .decimal d => if f.type = .float then (Binary64.ofDecimal d).exponentText else d.plain
  | .date d => d.compact
  | .time t => t.compact
  | .bytes b => Hex.encode b

def encode (f : Format) (v : Value) : Except CoercionError String :=
  if v.kind = f.type.kind then (checkRange f v).map fun _ => wireText f v
  else .error (.kindMismatch f.type f.type.kind v.kind)

/-! ## Reading -/

/-- The number that digits from `start` on, `count` of them, stand for. -/
def digitsAt (s : List Char) (start count : Nat) : Nat :=
  Number.digitsValue ((s.drop start).take count)

def readDate (s : List Char) : Except TextFault Date :=
  if s.length = 8 ∧ s.all Number.isDigit then
    match Date.ofYmd? (digitsAt s 0 4) (digitsAt s 4 2) (digitsAt s 6 2) with
    | some d => .ok d
    | none => .error .noSuchDay
  else .error .dateForm

def readTime (s : List Char) : Except TextFault Time :=
  if s.length = 6 ∧ s.all Number.isDigit then
    match Time.ofHms? (digitsAt s 0 2) (digitsAt s 2 2) (digitsAt s 4 2) with
    | some t => .ok t
    | none => .error .noSuchTime
  else .error .timeForm

/-- Reads a text as a value of a kind. White space around numbers is ignored. -/
def readValue (kind : ValueKind) (text : String) : Except TextFault Value :=
  match kind with
  | .text => .ok (.text text)
  | .integer => ((Number.readInteger (Text.trim text.toList)).mapError .integer).map .integer
  | .decimal => ((Decimal.read (Text.trim text.toList)).mapError .decimal).map .decimal
  | .date => (readDate text.toList).map .date
  | .time => (readTime text.toList).map .time
  | .bytes => ((Hex.decode text).mapError .bytes).map .bytes

/-- Refuses a value that was read and exceeds a limit of the field. The digits of a date and of a time of day leave no
room for another year or for a fraction of a second, so these are not checked again. -/
def checkRead (f : Format) : Value → Except CoercionError Unit
  | .date _ | .time _ => .ok ()
  | v => checkRange f v

def decode (f : Format) (text : String) : Except CoercionError Value :=
  match readValue f.type.kind text with
  | .error fault => .error (.invalidText f.type text fault)
  | .ok v => (checkRead f v).map fun _ => v

/-- The kinds that have a value with an empty wire string. -/
def hasEmptyForm : ValueKind → Bool
  | .text | .bytes => true
  | _ => false

/-- Reads a field's wire string; `none` leaves the field unset. -/
def decodeWire (f : Format) (text : String) : Except CoercionError (Option Value) :=
  if text.isEmpty && !hasEmptyForm f.type.kind then .ok none
  else (decode f text).map some

end Coercion

end DocWire
