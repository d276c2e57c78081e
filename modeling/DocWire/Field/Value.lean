/-
  DocWire.Field.Value — the values that fields hold.

  A value is one of six kinds. Decimals are compared as numbers, whatever their scales (`same`);
  `nearlySame` also lets two decimals pass that differ by no more than floating-point noise.
-/

import DocWire.Number.Binary64
import DocWire.Calendar.Time
import DocWire.Text.Hex
import DocWire.Field.DataType

namespace DocWire

inductive Value where
  | text (s : String)
  | integer (n : Int)
  | decimal (d : Decimal)
  | date (d : Date)
  | time (t : Time)
  | bytes (b : List UInt8)
  deriving DecidableEq, Repr

namespace Value

def kind : Value → ValueKind
  | .text _ => .text
  | .integer _ => .integer
  | .decimal _ => .decimal
  | .date _ => .date
  | .time _ => .time
  | .bytes _ => .bytes

/-- The value as a reader sees it in messages. -/
def display : Value → String
  | .text s => s
  | .integer n => toString n
  | .decimal d => d.text
  | .date d => d.text
  | .time t => t.clock
  | .bytes b => Hex.encode b

/-- Equality of values; of decimals, equality as numbers. -/
def same : Value → Value → Bool
  | .decimal a, .decimal b => a.sameValue b
  | a, b => a == b

/-- Equality up to the tolerance of floating-point numbers for decimals. -/
def nearlySame : Value → Value → Bool
  | .decimal a, .decimal b =>
    a.sameValue b || (Binary64.ofDecimal a).near (Binary64.ofDecimal b)
  | a, b => a == b

/-- The decimal value that a text stands for; white space around it is not allowed. -/
def decimal? (s : String) : Option Value :=
  match Decimal.read s.toList with
  | .ok d => some (.decimal d)
  | .error _ => none

end Value

end DocWire
