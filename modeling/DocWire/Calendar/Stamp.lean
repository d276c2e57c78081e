/-
  DocWire.Calendar.Stamp — the date and time at which a document was made, to the second.
-/

import DocWire.Calendar.Time

namespace DocWire

structure Stamp where
  date : Date
  time : Time
  deriving DecidableEq, Repr

namespace Stamp

/-- The stamp of a point in time; what is below a second is dropped. -/
def of (date : Date) (time : Time) : Stamp := ⟨date, time.wholeSecond⟩

def text (s : Stamp) : String := s.date.text ++ "T" ++ s.time.clock

/-- Date and time with a blank between them, the fraction included. -/
def spaced (s : Stamp) : String := s.date.text ++ " " ++ s.time.text

/-- Earlier or the same second. -/
def le (a b : Stamp) : Bool :=
  if a.date = b.date then a.time.nanosOfDay ≤ b.time.nanosOfDay else a.date.le b.date

end Stamp

end DocWire
