/-
  DocWire.Connector.Transaction — identifiers of transactions.

  Every send is tagged with an identifier, so that the receiver can process it once. An identifier is 32
  hexadecimal digits, upper case.
-/

import DocWire.Text.Hex

namespace DocWire

structure TransactionId where
  text : String
  deriving DecidableEq, Repr

namespace TransactionId

/-- The number of digits. -/
def digitCount : Nat := 32

def isHexDigit (c : Char) : Bool := (Hex.digitValue? c.toNat).isSome

/-- The upper-case form of a digit. -/
def upper (c : Char) : Char := if 'a' ≤ c ∧ c ≤ 'f' then Char.ofNat (c.toNat - 32) else c

/-- Reads an identifier in either case. -/
def parse? (text : String) : Option TransactionId :=
  let digits := text.toList
  if digits.length = digitCount && digits.all isHexDigit then some ⟨String.ofList (digits.map upper)⟩
  else none

/-- The message for a text that is no identifier. -/
def invalidMessage (text : String) : String :=
  "invalid transaction id " ++ Text.quote text ++ ": expected " ++ toString digitCount ++ " hex digits"

/-- The digits of a number in base 16, the last `count` of them. -/
def hexDigits : Nat → Nat → List Char
  | 0, _ => []
  | count + 1, n => hexDigits count (n / 16) ++ [Hex.digit (n % 16)]

/-- The identifier with a given number. -/
def ofNat (n : Nat) : TransactionId := ⟨String.ofList (hexDigits digitCount n)⟩

end TransactionId

end DocWire
