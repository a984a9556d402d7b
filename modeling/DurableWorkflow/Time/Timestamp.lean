/-!
# Points in time

A timestamp counts seconds since 1970 in the proleptic Gregorian calendar of UTC, with nanoseconds
from zero up to below two thousand million: the second thousand million is a leap second. The
calendar reaches from the year -262143 to the year 262142.
-/

namespace DurableWorkflow

/-- A length of time in nanoseconds. -/
abbrev Nanos := Nat

namespace Nanos

def perSecond : Nat := 1000000000
def perMilli : Nat := 1000000

def ofMillis (n : Nat) : Nanos := n * perMilli
def ofSeconds (n : Nat) : Nanos := n * perSecond

/-- Whole seconds. -/
def seconds (d : Nanos) : Nat := d / perSecond

/-- Milliseconds, rounded up. -/
def millisUp (d : Nanos) : Nat := (d + (perMilli - 1)) / perMilli

end Nanos

structure Timestamp where
  seconds : Int
  nanos : Nat
  deriving DecidableEq, Repr, Inhabited

/-- A day of the calendar. -/
structure Date where
  year : Int
  month : Nat
  day : Nat
  deriving DecidableEq, Repr, Inhabited

namespace Date

def minYear : Int := -262143
def maxYear : Int := 262142

def isLeap (year : Int) : Bool := year % 4 == 0 && (year % 100 != 0 || year % 400 == 0)

def daysInMonth (year : Int) (month : Nat) : Nat :=
  if month = 2 then if isLeap year then 29 else 28
  else if month = 4 || month = 6 || month = 9 || month = 11 then 30
  else 31

/-- Does the calendar have the day? -/
def isValid (d : Date) : Bool :=
  minYear ≤ d.year && d.year ≤ maxYear && 1 ≤ d.month && d.month ≤ 12
    && 1 ≤ d.day && d.day ≤ daysInMonth d.year d.month

/-- Days since 1970-01-01. Years are counted from March, so that the leap day is their last. -/
def toDays (d : Date) : Int :=
  let y := if d.month ≤ 2 then d.year - 1 else d.year
  let era := y / 400
  let yearOfEra := y - era * 400
  let m : Int := if d.month > 2 then d.month - 3 else d.month + 9
  let dayOfYear := (153 * m + 2) / 5 + d.day - 1
  era * 146097 + (yearOfEra * 365 + yearOfEra / 4 - yearOfEra / 100 + dayOfYear) - 719468

/-- The day so many days after 1970-01-01. -/
def ofDays (days : Int) : Date :=
  let z := days + 719468
  let era := z / 146097
  let dayOfEra := z - era * 146097
  let yearOfEra := (dayOfEra - dayOfEra / 1460 + dayOfEra / 36524 - dayOfEra / 146096) / 365
  let dayOfYear := dayOfEra - (365 * yearOfEra + yearOfEra / 4 - yearOfEra / 100)
  let mp := (5 * dayOfYear + 2) / 153
  let day := (dayOfYear - (153 * mp + 2) / 5 + 1).toNat
  let month := if mp < 10 then (mp + 3).toNat else (mp - 9).toNat
  ⟨yearOfEra + era * 400 + (if month ≤ 2 then 1 else 0), month, day⟩

end Date

namespace Timestamp

def secondsPerDay : Int := 86400

/-- Earlier, or the same. -/
def le (a b : Timestamp) : Bool :=
  a.seconds < b.seconds || (a.seconds == b.seconds && a.nanos ≤ b.nanos)

/-- The first second of the calendar. -/
def minSeconds : Int := Date.toDays ⟨Date.minYear, 1, 1⟩ * secondsPerDay

/-- The last second of the calendar. -/
def maxSeconds : Int := (Date.toDays ⟨Date.maxYear, 12, 31⟩ + 1) * secondsPerDay - 1

def inRange (t : Timestamp) : Bool := minSeconds ≤ t.seconds && t.seconds ≤ maxSeconds

/-- The instant `d` later, unless it lies beyond the calendar. -/
def add? (t : Timestamp) (d : Nanos) : Option Timestamp :=
  let n := t.nanos + d
  let r : Timestamp :=
    if t.nanos ≥ Nanos.perSecond && n < 2 * Nanos.perSecond then ⟨t.seconds, n⟩
    else ⟨t.seconds + (n / Nanos.perSecond : Nat), n % Nanos.perSecond⟩
  if r.inRange then some r else none

/-- Nanoseconds from `b` to `a`; a leap second between them on the same day counts. -/
def nanosSince (a b : Timestamp) : Int :=
  let (da, sa) := (a.seconds / secondsPerDay, a.seconds % secondsPerDay)
  let (db, sb) := (b.seconds / secondsPerDay, b.seconds % secondsPerDay)
  let leap : Int :=
    if sa > sb && b.nanos ≥ Nanos.perSecond then 1
    else if sa < sb && a.nanos ≥ Nanos.perSecond then -1
    else 0
  ((da - db) * secondsPerDay + (sa - sb) + leap) * 1000000000 + ((a.nanos : Int) - b.nanos)

/-- Whole milliseconds from `b` to `a`, toward zero. -/
def millisSince (a b : Timestamp) : Int := (nanosSince a b).tdiv 1000000

/-- Milliseconds since 1970. -/
def toMillis (t : Timestamp) : Int := t.seconds * 1000 + (t.nanos / 1000000 : Nat)

end Timestamp

end DurableWorkflow
