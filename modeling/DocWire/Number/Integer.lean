/-
  DocWire.Number.Integer — reading whole numbers of any size, and of a bounded size.

  `readInteger` takes an optional sign and decimal digits; underscores between or after the digits are
  skipped. Of the two signs `-` may stand first and `+` alone, never both. Only ASCII digits count.
  `readBounded` takes no underscores and refuses what leaves the given range.
-/

namespace DocWire.Number

inductive IntegerFault where
  | empty
  | badDigit
  | tooLarge
  | tooSmall
  deriving DecidableEq, Repr

def IntegerFault.message : IntegerFault → String
  | .empty => "cannot parse integer from empty string"
  | .badDigit => "invalid digit found in string"
  | .tooLarge => "number too large to fit in target type"
  | .tooSmall => "number too small to fit in target type"

def isDigit (c : Char) : Bool := '0' ≤ c && c ≤ '9'

/-- The value of a digit in a base up to 16. -/
def digitIn? (base : Nat) (c : Char) : Option Nat :=
  let value :=
    if '0' ≤ c && c ≤ '9' then c.toNat - 48
    else if 'a' ≤ c && c ≤ 'f' then c.toNat - 87
    else if 'A' ≤ c && c ≤ 'F' then c.toNat - 55
    else base
  if value < base then some value else none

/-- The number that digits in a base write; there is at least one. -/
def digitsIn? (base : Nat) (digits : List Char) : Option Nat :=
  if digits.isEmpty then none
  else digits.foldlM (fun value c => (digitIn? base c).map (value * base + ·)) 0

/-- The value of digits read from the left, most significant first. -/
def digitsValue (digits : List Char) : Nat := Nat.ofDigitChars 10 digits 0

/-- Digits with underscores between them; the first character is a digit. -/
def readMagnitude (s : List Char) : Except IntegerFault Nat :=
  match s with
  | [] => .error .empty
  | '_' :: _ => .error .badDigit
  | _ =>
    let digits := s.filter (· != '_')
    if digits.all isDigit then .ok (digitsValue digits) else .error .badDigit

/-- A plus sign in front is dropped, unless another follows it. -/
def dropPlus : List Char → List Char
  | '+' :: '+' :: rest => '+' :: '+' :: rest
  | '+' :: rest => rest
  | s => s

/-- A whole number of any size. -/
def readInteger (s : List Char) : Except IntegerFault Int :=
  match s with
  | '-' :: '+' :: _ => .error .badDigit
  | '-' :: rest => (readMagnitude (dropPlus rest)).map fun n => -(n : Int)
  | _ => (readMagnitude (dropPlus s)).map fun n => (n : Int)

/-- Reads digits onto `value`; stops at the first character that is no digit or that takes the value
past `limit`. -/
def readDigitsUpTo (limit : Nat) (past : IntegerFault) (value : Nat) : List Char → Except IntegerFault Nat
  | [] => .ok value
  | c :: rest =>
    if isDigit c then
      let next := value * 10 + (c.toNat - 48)
      if next ≤ limit then readDigitsUpTo limit past next rest else .error past
    else .error .badDigit

/-- A whole number with an optional sign, in two's complement of `bits` bits. -/
def readBounded (bits : Nat) (s : List Char) : Except IntegerFault Int :=
  let top := Nat.pow 2 (bits - 1)
  match s with
  | [] => .error .empty
  | ['+'] | ['-'] => .error .badDigit
  | '-' :: rest => (readDigitsUpTo top .tooSmall 0 rest).map fun n => -(n : Int)
  | '+' :: rest => (readDigitsUpTo (top - 1) .tooLarge 0 rest).map fun n => (n : Int)
  | _ => (readDigitsUpTo (top - 1) .tooLarge 0 s).map fun n => (n : Int)

/-- The decimal digits of a natural number, without leading zeros; zero has the digit 0. -/
def digits (n : Nat) : List Char := Nat.toDigits 10 n

theorem digitsValue_digits (n : Nat) : digitsValue (digits n) = n := by
  simp [digitsValue, digits, Nat.ofDigitChars_ten_toDigits]

/-- A sign for negative numbers, then the digits. -/
def intChars (i : Int) : List Char :=
  (if i < 0 then ['-'] else []) ++ digits i.natAbs

end DocWire.Number
