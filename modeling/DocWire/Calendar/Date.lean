/-
  DocWire.Calendar.Date — days of the proleptic Gregorian calendar.

  Year 0 exists and precedes year 1. A date carries the proof that its day exists, so there is no value
  for 29 February of a common year.
-/

import DocWire.Number.Integer

namespace DocWire

namespace Calendar

def isLeapYear (year : Int) : Bool := year % 4 == 0 && (year % 100 != 0 || year % 400 == 0)

def daysInMonth (year : Int) (month : Nat) : Nat :=
  if month = 2 then (if isLeapYear year then 29 else 28)
  else if month = 4 ∨ month = 6 ∨ month = 9 ∨ month = 11 then 30
  else 31

/-- The years that dates cover. -/
def firstYear : Int := -262143

def lastYear : Int := 262142

def IsDay (year : Int) (month day : Nat) : Prop :=
  firstYear ≤ year ∧ year ≤ lastYear ∧ 1 ≤ month ∧ month ≤ 12 ∧ 1 ≤ day ∧ day ≤ daysInMonth year month

instance (year : Int) (month day : Nat) : Decidable (IsDay year month day) := by
  unfold IsDay; infer_instance

/-- A number with zeros in front, up to `width` digits. -/
def padded (width n : Nat) : List Char :=
  let digits := Number.digits n
  List.replicate (width - digits.length) '0' ++ digits

end Calendar

open Calendar (IsDay padded)

structure Date where
  year : Int
  month : Nat
  day : Nat
  isDay : IsDay year month day
  deriving DecidableEq, Repr

namespace Date

def ofYmd? (year : Int) (month day : Nat) : Option Date :=
  if h : IsDay year month day then some ⟨year, month, day, h⟩ else none

/-- Four digits from year 0 to year 9999, a sign and at least four digits outside. -/
def yearChars (d : Date) : List Char :=
  if 0 ≤ d.year ∧ d.year ≤ 9999 then padded 4 d.year.natAbs
  else (if d.year < 0 then '-' else '+') :: padded 4 d.year.natAbs

/-- Year, month and day without separators. -/
def compactChars (d : Date) : List Char := d.yearChars ++ padded 2 d.month ++ padded 2 d.day

/-- Year, month and day with hyphens between them. -/
def textChars (d : Date) : List Char :=
  d.yearChars ++ '-' :: padded 2 d.month ++ '-' :: padded 2 d.day

def compact (d : Date) : String := String.ofList d.compactChars

def text (d : Date) : String := String.ofList d.textChars

/-- Earlier or the same day. -/
def le (a b : Date) : Bool :=
  a.year < b.year ||
    (a.year == b.year && (a.month < b.month || (a.month == b.month && a.day ≤ b.day)))

end Date

end DocWire
