/-
  DocWire.Field.DataType — the primitive types that a field can be declared with.

  Every type has an upper-case tag and takes values of one kind. Three integer types have a range.
-/

import DocWire.Text.Quoted

namespace DocWire

/-- The shapes that a value can have. -/
inductive ValueKind where
  | text
  | integer
  | decimal
  | date
  | time
  | bytes
  deriving DecidableEq, Repr

def ValueKind.name : ValueKind → String
  | .text => "text"
  | .integer => "integer"
  | .decimal => "decimal"
  | .date => "date"
  | .time => "time"
  | .bytes => "bytes"

inductive DataType where
  /-- A text of fixed length. -/
  | char
  | string
  | language
  | client
  | currencyKey
  | unit
  /-- Digits that stay text. -/
  | numericText
  | period
  | precision
  | quantity
  | currency
  | packed
  | float
  | int1
  | int2
  | int4
  | date
  | time
  /-- Bytes of fixed length. -/
  | raw
  | longRaw
  | rawString
  deriving DecidableEq, Repr

namespace DataType

/-- The types in the order in which they are listed. -/
def all : List DataType :=
  [.char, .string, .language, .client, .currencyKey, .unit, .numericText, .period, .precision,
   .quantity, .currency, .packed, .float, .int1, .int2, .int4, .date, .time, .raw, .longRaw, .rawString]

def tag : DataType → String
  | .char => "CHAR"
  | .string => "STRING"
  | .language => "LANG"
  | .client => "CLNT"
  | .currencyKey => "CUKY"
  | .unit => "UNIT"
  | .numericText => "NUMC"
  | .period => "ACCP"
  | .precision => "PREC"
  | .quantity => "QUAN"
  | .currency => "CURR"
  | .packed => "DEC"
  | .float => "FLTP"
  | .int1 => "INT1"
  | .int2 => "INT2"
  | .int4 => "INT4"
  | .date => "DATS"
  | .time => "TIMS"
  | .raw => "RAW"
  | .longRaw => "LRAW"
  | .rawString => "RAWSTRING"

/-- The kind of the values that the type takes. -/
def kind : DataType → ValueKind
  | .char | .string | .language | .client | .currencyKey | .unit | .numericText | .period
  | .precision => .text
  | .quantity | .currency | .packed | .float => .decimal
  | .int1 | .int2 | .int4 => .integer
  | .date => .date
  | .time => .time
  | .raw | .longRaw | .rawString => .bytes

/-- The least and the greatest number of an integer type. -/
def integerRange? : DataType → Option (Int × Int)
  | .int1 => some (0, 255)
  | .int2 => some (-32768, 32767)
  | .int4 => some (-2147483648, 2147483647)
  | _ => none

/-- The type with a given tag. -/
def ofTag? (tag : String) : Option DataType := all.find? (·.tag == tag)

/-- The message for a tag that no type has. -/
def unknownTagMessage (tag : String) : String := "unknown data type tag: " ++ Text.quote tag

theorem mem_all (t : DataType) : t ∈ all := by cases t <;> decide

end DataType

end DocWire
