import DurableWorkflow.Json.Decode
import DurableWorkflow.Number.Power
import DurableWorkflow.Text.Blank
import DurableWorkflow.Text.Digits
import DurableWorkflow.Time.Timestamp

/-!
# Timestamps as text

Printed in UTC with a `Z`, a year outside 0 to 9999 with its sign, and as few of 0, 3, 6 or 9
fraction digits as lose nothing. Read more freely: a blank or a small `t` between date and time,
fields of fewer digits, blanks before them, any fraction (what is finer than nanoseconds is cut) and
any offset below a day.
-/

namespace DurableWorkflow.Timestamp

open Text

/-- Four digits, or a sign and at least four. -/
def yearText (y : Int) : String :=
  if 0 ≤ y && y ≤ 9999 then padded 4 y.toNat
  else (if y < 0 then "-" else "+") ++ padded 4 y.natAbs

/-- Date and time to the second, and the nanoseconds left. -/
def parts (t : Timestamp) : String × Nat :=
  let d := Date.ofDays (t.seconds / secondsPerDay)
  let s := (t.seconds % secondsPerDay).toNat
  let (sec, nanos) :=
    if t.nanos ≥ Nanos.perSecond then (s % 60 + 1, t.nanos - Nanos.perSecond) else (s % 60, t.nanos)
  (yearText d.year ++ "-" ++ padded 2 d.month ++ "-" ++ padded 2 d.day ++ "T"
    ++ padded 2 (s / 3600) ++ ":" ++ padded 2 (s / 60 % 60) ++ ":" ++ padded 2 sec, nanos)

/-- The fewest fraction digits of 0, 3, 6 and 9. -/
def fractionText (nanos : Nat) : String :=
  if nanos = 0 then ""
  else if nanos % 1000000 = 0 then "." ++ padded 3 (nanos / 1000000)
  else if nanos % 1000 = 0 then "." ++ padded 6 (nanos / 1000)
  else "." ++ padded 9 nanos

def text (t : Timestamp) : String :=
  let (s, nanos) := t.parts
  s ++ fractionText nanos ++ "Z"

/-- Always six fraction digits, what is finer is cut. -/
def microsText (t : Timestamp) : String :=
  let (s, nanos) := t.parts
  s ++ "." ++ padded 6 (nanos / 1000) ++ "Z"

/-- With the offset of UTC in the place of the `Z`. -/
def offsetText (t : Timestamp) : String :=
  let (s, nanos) := t.parts
  s ++ fractionText nanos ++ "+00:00"

/-- Date and time to the second, a blank between them. -/
def secondsText (t : Timestamp) : String := t.parts.1.map fun c => if c = 'T' then ' ' else c

/-- Date and time to the minute. -/
def minutesText (t : Timestamp) : String :=
  String.ofList (t.secondsText.toList.reverse.drop 3).reverse

instance : ToString Timestamp := ⟨text⟩

/-- At least one and at most `width` digits, after blanks. -/
def readField (width : Nat) (cs : List Char) : Option (Nat × List Char) :=
  let cs := skipBlanks cs
  let ds := (cs.take width).takeWhile Char.isDigit
  if ds.isEmpty then none else some (digitsValue ds, cs.drop ds.length)

/-- A year of at most four digits, or one of any length after a sign. -/
def readYear (cs : List Char) : Option (Int × List Char) :=
  match skipBlanks cs with
  | '-' :: r => readSigned r fun n => -n
  | '+' :: r => readSigned r fun n => n
  | r => (readField 4 r).map fun (n, r) => ((n : Int), r)
where
  readSigned (cs : List Char) (f : Int → Int) : Option (Int × List Char) :=
    let ds := cs.takeWhile Char.isDigit
    if ds.isEmpty then none else some (f (digitsValue ds), cs.drop ds.length)

/-- `c`, with blanks before it. -/
def readMark (c : Char) (cs : List Char) : Option (List Char) :=
  match skipBlanks cs with
  | d :: r => if d = c then some r else none
  | [] => none

def readDate (cs : List Char) : Option (Date × List Char) := do
  let (year, cs) ← readYear cs
  let cs ← readMark '-' cs
  let (month, cs) ← readField 2 cs
  let cs ← readMark '-' cs
  let (day, cs) ← readField 2 cs
  let date : Date := ⟨year, month, day⟩
  if date.isValid then some (date, cs) else none

/-- The fraction of a second in nanoseconds. -/
def readFraction (cs : List Char) : Option (Nat × List Char) :=
  match cs with
  | '.' :: r =>
    let ds := r.takeWhile Char.isDigit
    let kept := ds.take 9
    if ds.isEmpty then none
    else some (digitsValue kept * tenTo (9 - kept.length), r.drop ds.length)
  | cs => some (0, cs)

/-- Seconds of the day and nanoseconds; second 60 is a leap second. -/
def readTime (cs : List Char) : Option ((Nat × Nat) × List Char) := do
  let (hour, cs) ← readField 2 cs
  let cs ← readMark ':' cs
  let (minute, cs) ← readField 2 cs
  let cs ← readMark ':' cs
  let (second, cs) ← readField 2 cs
  let (nanos, cs) ← readFraction cs
  if hour < 24 && minute < 60 && second ≤ 60 then
    let base := hour * 3600 + minute * 60
    if second = 60 then some ((base + 59, Nanos.perSecond + nanos), cs)
    else some ((base + second, nanos), cs)
  else none

/-- The offset from UTC in seconds: `Z`, `UTC`, or a sign, two digits of hours and two of minutes
with colons or blanks between them. -/
def readOffset (cs : List Char) : Option (Int × List Char) :=
  match cs with
  | 'Z' :: r | 'z' :: r => some (0, r)
  | '+' :: r => readHours 1 r
  | '-' :: r => readHours (-1) r
  | '\u2212' :: r => readHours (-1) r
  | cs =>
    if (cs.take 3).map Char.toLower == ['u', 't', 'c'] then some (0, cs.drop 3) else none
where
  readHours (sign : Int) : List Char → Option (Int × List Char)
    | a :: b :: r =>
      match r.dropWhile fun c => c == ':' || isBlank c with
      | c :: d :: r =>
        let hours := digitsValue [a, b]
        let minutes := digitsValue [c, d]
        if a.isDigit && b.isDigit && c.isDigit && d.isDigit && minutes < 60 && hours < 24 then
          some (sign * (hours * 3600 + minutes * 60 : Nat), r)
        else none
      | _ => none
    | _ => none

def ofText? (s : String) : Option Timestamp := do
  let (date, cs) ← readDate s.toList
  let cs ← match cs with
    | 'T' :: r | 't' :: r | ' ' :: r => some r
    | _ => none
  let ((secs, nanos), cs) ← readTime cs
  let (offset, cs) ← readOffset (skipBlanks cs)
  let t : Timestamp := ⟨date.toDays * secondsPerDay + secs - offset, nanos⟩
  if (skipBlanks cs).isEmpty && t.inRange then some t else none

def toJson (t : Timestamp) : Json := .str t.text

def ofJson? (j : Json) : Option Timestamp := j.toText?.bind ofText?

end DurableWorkflow.Timestamp
