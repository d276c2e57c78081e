/-
  DocWire.Number.Decimal — exact decimal numbers, held as they were written.

  A decimal is a whole number (the mantissa) and a scale: `mantissa · 10^(-scale)`. Two decimals of one
  value may differ in scale (1.50 and 1.5); `normal` is the form that a value has once, and `sameValue`
  compares values. There are two written forms: `text`, which switches to an exponent for very small and
  very large numbers, and `plain`, which never does.
-/

import DocWire.Number.Integer

namespace DocWire

structure Decimal where
  mantissa : Int
  scale : Int
  deriving DecidableEq, Repr

namespace Decimal

open Number (IntegerFault isDigit readInteger readBounded)

/-! ## Reading -/

inductive Fault where
  | exponent (fault : IntegerFault)
  | empty
  /-- The scale does not fit 64 bits. -/
  | exponentOverflow (text : String)
  | digits (fault : IntegerFault)
  deriving DecidableEq, Repr

def Fault.message : Fault → String
  | .exponent fault => fault.message
  | .empty => "Failed to parse empty string"
  | .exponentOverflow text => "Exponent overflow when parsing '" ++ text ++ "'"
  | .digits fault => fault.message

def isExponentMark (c : Char) : Bool := c == 'e' || c == 'E'

/-- The exponent behind the first `e` or `E`; zero where there is none. -/
def readExponent (text : List Char) : Except IntegerFault Int :=
  match text.dropWhile (!isExponentMark ·) with
  | [] => .ok 0
  | _ :: exponent => readBounded 128 exponent

def fitsInt64 (n : Int) : Bool := -(Nat.pow 2 63) ≤ n && n < Nat.pow 2 63

/-- Reads a decimal. The exponent is read before the digits; the first point is taken out of the digits,
and the scale is the number of digits behind it, underscores not counted, less the exponent. -/
def read (text : List Char) : Except Fault Decimal :=
  match readExponent text with
  | .error fault => .error (.exponent fault)
  | .ok exponent =>
    let base := text.takeWhile (!isExponentMark ·)
    if base.isEmpty then .error .empty
    else
      let whole := base.takeWhile (· != '.')
      let fraction := (base.dropWhile (· != '.')).drop 1
      let scale := ((fraction.filter (· != '_')).length : Int) - exponent
      if fitsInt64 scale then
        match readInteger (whole ++ fraction) with
        | .error fault => .error (.digits fault)
        | .ok mantissa => .ok ⟨mantissa, scale⟩
      else .error (.exponentOverflow (String.ofList text))

/-! ## Values -/

/-- The digits of the mantissa, without its sign. -/
def digits (d : Decimal) : List Char := Number.digits d.mantissa.natAbs

def isNegative (d : Decimal) : Bool := d.mantissa < 0

/-- How many zeros a list of digits ends with. -/
def trailingZeros (digits : List Char) : Nat := (digits.reverse.takeWhile (· == '0')).length

/-- The one form of a value whose mantissa does not end in a zero; zero itself has scale 0. -/
def normal (d : Decimal) : Decimal :=
  if d.mantissa = 0 then ⟨0, 0⟩
  else
    let zeros := trailingZeros d.digits
    ⟨d.mantissa / Nat.pow 10 zeros, d.scale - zeros⟩

/-- Equality of the numbers, whatever their scales. -/
def sameValue (a b : Decimal) : Bool := a.normal == b.normal

/-! ## Writing -/

def sign (d : Decimal) : List Char := if d.isNegative then ['-'] else []

def zeros (n : Nat) : List Char := List.replicate n '0'

/-- Digits with a point before the last `places` of them, filled up with zeros in front. -/
def pointed (digits : List Char) (places : Nat) : List Char :=
  if places < digits.length then
    digits.take (digits.length - places) ++ '.' :: digits.drop (digits.length - places)
  else
    '0' :: '.' :: (zeros (places - digits.length) ++ digits)

/-- The plain form of a mantissa's digits: zeros for a scale below 0, a point above. -/
def plainDigits (digits : List Char) (scale : Int) : List Char :=
  if scale ≤ 0 then
    if digits = ['0'] then digits else digits ++ zeros scale.natAbs
  else pointed digits scale.natAbs

/-- All digits written out, with as many places as the scale says. -/
def plainChars (d : Decimal) : List Char := d.sign ++ plainDigits d.digits d.scale

/-- One digit before the point, the others behind it; no point for a single digit. -/
def leadingPoint : List Char → List Char
  | [] => []
  | [c] => [c]
  | c :: rest => c :: '.' :: rest

/-- More than five zeros behind the point, or more than fifteen at the end, are written as an
exponent. Zero is `0` at every scale. -/
def textChars (d : Decimal) : List Char :=
  let digits := d.digits
  let scale := if d.mantissa = 0 then 0 else d.scale
  d.sign ++
    if scale - digits.length > 5 then
      leadingPoint digits ++ 'E' :: Number.intChars (digits.length - 1 - scale)
    else if -scale > 15 then digits ++ 'e' :: '+' :: Number.digits scale.natAbs
    else plainDigits digits scale

def plain (d : Decimal) : String := String.ofList d.plainChars

def text (d : Decimal) : String := String.ofList d.textChars

end Decimal

end DocWire
