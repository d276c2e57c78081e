/-
  DocWire.Number.Binary64 — the numbers of the binary interchange format of 64 bits, exactly.

  Every finite number of the format is a whole multiple of 2^(-1074), the unit below, so a magnitude is a
  natural number of units or infinity. A rational is rounded to the nearest number of the format, ties to
  the even significand (`roundQuotient`). `shortest` selects the fewest digits that read back to a
  number, by trying each count of digits in turn; nearness of two numbers is decided by the format's own
  arithmetic (`near`).
-/

import DocWire.Number.Decimal

namespace DocWire

/-- The magnitude of a number: so many units of 2^(-1074), or more than all of them. -/
inductive Magnitude where
  | finite (units : Nat)
  | infinite
  deriving DecidableEq, Repr

structure Binary64 where
  negative : Bool
  magnitude : Magnitude
  deriving DecidableEq, Repr

namespace Magnitude

/-- The exponent of the unit that a number of `floor` units, or a fraction more, is rounded to: a
significand has 53 bits. -/
def exponentOf (floor : Nat) : Nat := floor.log2 - 52

/-- The quotient to the nearest whole number, a half to the even neighbour. -/
def nearestEven (num den : Nat) : Nat :=
  let q := num / den
  let twice := 2 * (num % den)
  if twice < den then q else if den < twice then q + 1 else q + q % 2

/-- The least number of units that is out of range: 2^1024. -/
def overflow : Nat := Nat.pow 2 2098

/-- `num / den` units, rounded to a number of the format. -/
def roundQuotient (num den : Nat) : Magnitude :=
  let step := Nat.pow 2 (exponentOf (num / den))
  let units := nearestEven num (den * step) * step
  if units < overflow then .finite units else .infinite

/-- Order of magnitudes. -/
def le : Magnitude → Magnitude → Bool
  | _, .infinite => true
  | .infinite, .finite _ => false
  | .finite a, .finite b => a ≤ b

/-- The units of one: 2^1074. -/
def one : Nat := Nat.pow 2 1074

/-- The decimal `mantissa · 10^(-scale)`, rounded. From 10^310 on everything is infinite and from
10^(-330) down everything is zero, which is decided before any power is formed. -/
def ofDecimal (mantissa : Nat) (scale : Int) : Magnitude :=
  let top := ((Number.digits mantissa).length : Int) - scale
  if mantissa = 0 then .finite 0
  else if top > 310 then .infinite
  else if top < -330 then .finite 0
  else if scale ≤ 0 then roundQuotient (mantissa * Nat.pow 10 scale.natAbs * one) 1
  else roundQuotient (mantissa * one) (Nat.pow 10 scale.natAbs)

/-! ## The fewest digits -/

/-- The least `k` with `num / den < 10^k`; it is not above 310 for a number of the format. -/
def decimalExponent (units : Nat) : Int :=
  let whole := units / one
  if whole = 0 then
    -- below one: the zeros behind the point of the exact decimal expansion
    let behind := Number.digits (units * Nat.pow 5 1074)
    (behind.length : Int) - 1074
  else (Number.digits whole).length

/-- The two neighbours of the number on the grid of `10^power`, the nearer one first; of two equally
near ones the larger first. -/
def gridNeighbours (units : Nat) (power : Int) : List Nat :=
  let num := if power ≤ 0 then units * Nat.pow 10 power.natAbs else units
  let den := if power ≤ 0 then one else one * Nat.pow 10 power.natAbs
  let low := num / den
  if 2 * (num % den) < den then [low, low + 1] else [low + 1, low]

/-- A number with `count` digits that reads back, if there is one. -/
def withDigits? (units : Nat) (count : Nat) : Option Decimal :=
  let power := decimalExponent units - count
  ((gridNeighbours units power).find? fun c => ofDecimal c (-power) == .finite units).map
    fun c => ⟨c, -power⟩

/-- The exact expansion of `units` units, which reads back too. -/
def exact (units : Nat) : Decimal := ⟨units * Nat.pow 5 1074, 1074⟩

/-- The fewest digits that read back to the number, and of those the nearest; without trailing zeros. -/
def shortest (units : Nat) : Decimal :=
  (((List.range' 1 17).findSome? (withDigits? units)).getD (exact units)).normal

end Magnitude

namespace Binary64

/-- A decimal, rounded. A negative decimal that rounds to zero keeps its sign. -/
def ofDecimal (d : Decimal) : Binary64 :=
  ⟨d.isNegative, .ofDecimal d.mantissa.natAbs d.scale⟩

def isFinite (x : Binary64) : Bool := x.magnitude != .infinite

/-- The number with an exponent: one digit before the point, no plus sign. -/
def exponentChars (x : Binary64) : List Char :=
  (if x.negative then ['-'] else []) ++
    match x.magnitude with
    | .infinite => ['i', 'n', 'f']
    | .finite units =>
      let d := Magnitude.shortest units
      let digits := d.digits
      Decimal.leadingPoint digits ++ 'E' :: Number.intChars (digits.length - 1 - d.scale)

def exponentText (x : Binary64) : String := String.ofList x.exponentChars

/-- The tolerance 10^(-15) as a number of the format, in units. -/
def toleranceUnits : Nat :=
  match Magnitude.ofDecimal 1 15 with
  | .finite units => units
  | .infinite => 0

/-- Whether `|x - y|` is at most the larger magnitude times the tolerance, each operation rounded. The
difference of two equal infinities is no number and never within the tolerance; any other difference
with an infinity in it is infinite, and so is the tolerance. -/
def near (x y : Binary64) : Bool :=
  match x.magnitude, y.magnitude with
  | .infinite, .infinite => x.negative != y.negative
  | .infinite, .finite _ | .finite _, .infinite => true
  | .finite a, .finite b =>
    let distance := if x.negative == y.negative then max a b - min a b else a + b
    (Magnitude.roundQuotient distance 1).le
      (Magnitude.roundQuotient (max a b * toleranceUnits) Magnitude.one)

end Binary64

end DocWire
