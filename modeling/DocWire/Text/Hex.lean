/-
  DocWire.Text.Hex — bytes as hexadecimal text.

  Writing uses upper-case digits, two to a byte, with nothing between. Reading takes both cases. An odd
  number of digits is refused before any digit is looked at; length and positions are counted in the
  bytes of the text's UTF-8 form.
-/

import DocWire.Text.Quoted

namespace DocWire.Hex

inductive Fault where
  | oddLength
  /-- The byte at `position` is no digit. -/
  | badDigit (byte : UInt8) (position : Nat)
  deriving DecidableEq, Repr

/-- The offending byte is shown as the character with that code. -/
def Fault.message : Fault → String
  | .oddLength => "Odd number of digits"
  | .badDigit byte position =>
    "Invalid character " ++ Text.quoteChar (Char.ofNat byte.toNat) ++ " at position " ++ toString position

/-- The digit for a number below 16, upper case. -/
def digit (n : Nat) : Char :=
  if n < 10 then Char.ofNat (48 + n) else Char.ofNat (55 + n)

/-- The value of a digit of either case, given by its ASCII code. -/
def digitValue? (code : Nat) : Option Nat :=
  if 48 ≤ code ∧ code ≤ 57 then some (code - 48)
  else if 65 ≤ code ∧ code ≤ 70 then some (code - 55)
  else if 97 ≤ code ∧ code ≤ 102 then some (code - 87)
  else none

def encodeChars : List UInt8 → List Char
  | [] => []
  | b :: rest => digit (b.toNat / 16) :: digit (b.toNat % 16) :: encodeChars rest

def encode (bytes : List UInt8) : String := String.ofList (encodeChars bytes)

/-- Pairs of digits from `position` on; the first offending byte of all is reported. -/
def decodePairs (position : Nat) : List UInt8 → Except Fault (List UInt8)
  | [] => .ok []
  | [_] => .error .oddLength
  | high :: low :: rest =>
    match digitValue? high.toNat with
    | none => .error (.badDigit high position)
    | some h =>
      match digitValue? low.toNat with
      | none => .error (.badDigit low (position + 1))
      | some l => (decodePairs (position + 2) rest).map (UInt8.ofNat (h * 16 + l) :: ·)

def decode (text : String) : Except Fault (List UInt8) :=
  let bytes := text.toUTF8.toList
  if bytes.length % 2 = 1 then .error .oddLength else decodePairs 0 bytes

end DocWire.Hex
