/-
  DocWire.Calendar.Time — times of day, to the nanosecond.

  A leap second is the last second of a minute held with a thousand million nanoseconds or more; it is
  written as second 60.
-/

import DocWire.Calendar.Date

namespace DocWire

namespace Calendar

def nanosPerSecond : Nat := 1000000000

def IsTimeOfDay (hour minute second nano : Nat) : Prop :=
  hour < 24 ∧ minute < 60 ∧ second < 60 ∧ nano < 2 * nanosPerSecond ∧
    (nanosPerSecond ≤ nano → second = 59)

instance (hour minute second nano : Nat) : Decidable (IsTimeOfDay hour minute second nano) := by
  unfold IsTimeOfDay; infer_instance

end Calendar

open Calendar (IsTimeOfDay nanosPerSecond padded)

structure Time where
  hour : Nat
  minute : Nat
  second : Nat
  nano : Nat
  isTimeOfDay : IsTimeOfDay hour minute second nano
  deriving DecidableEq, Repr

namespace Time

def ofHmsNano? (hour minute second nano : Nat) : Option Time :=
  if h : IsTimeOfDay hour minute second nano then some ⟨hour, minute, second, nano, h⟩ else none

def ofHms? (hour minute second : Nat) : Option Time := ofHmsNano? hour minute second 0

/-- The second as it is written: 60 in a leap second. -/
def shownSecond (t : Time) : Nat := t.second + t.nano / nanosPerSecond

/-- Hour, minute and second without separators. -/
def compactChars (t : Time) : List Char := padded 2 t.hour ++ padded 2 t.minute ++ padded 2 t.shownSecond

/-- Hour, minute and second with colons between them. -/
def clockChars (t : Time) : List Char :=
  padded 2 t.hour ++ ':' :: padded 2 t.minute ++ ':' :: padded 2 t.shownSecond

/-- The part below a second: nothing, or a point and three, six or nine digits, the fewest that hold
it. -/
def fractionChars (t : Time) : List Char :=
  let nano := t.nano % nanosPerSecond
  if nano = 0 then []
  else if nano % 1000000 = 0 then '.' :: padded 3 (nano / 1000000)
  else if nano % 1000 = 0 then '.' :: padded 6 (nano / 1000)
  else '.' :: padded 9 nano

def compact (t : Time) : String := String.ofList t.compactChars

def clock (t : Time) : String := String.ofList t.clockChars

/-- The clock with its fraction. -/
def text (t : Time) : String := String.ofList (t.clockChars ++ t.fractionChars)

/-- The same second without its fraction; a leap second becomes the second before it. -/
def wholeSecond (t : Time) : Time :=
  ⟨t.hour, t.minute, t.second, 0, by
    obtain ⟨h1, h2, h3, _, _⟩ := t.isTimeOfDay
    exact ⟨h1, h2, h3, by decide, fun h => absurd h (by decide)⟩⟩

def nanosOfDay (t : Time) : Nat := ((t.hour * 60 + t.minute) * 60 + t.second) * nanosPerSecond + t.nano

end Time

end DocWire
