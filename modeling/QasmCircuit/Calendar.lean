import QasmCircuit.Decimal.Fixed
import QasmCircuit.Text.Blank

/-!
# Dates and moments

A `Date` is a day of the calendar, and a `Moment` a time on a day, which may know its offset from
universal time. Two moments with offsets are the same if they name the same instant.
-/

namespace QasmCircuit

open Text (join)

/-- What puts a date or a moment out of range. -/
inductive OutOfRange where
  | year (n : Nat)
  | month
  | day
  | hour
  | minute
  | second
  /-- An offset, in minutes. -/
  | offset (minutes : Int)
deriving DecidableEq, Repr

/-- A span of minutes inside a message, as days and the seconds of a day. -/
def spanShown (minutes : Int) : String :=
  let part (name : String) (n : Int) := if n = 0 then [] else [name ++ "=" ++ toString n]
  let parts := part "days" (minutes.fdiv 1440) ++ part "seconds" (60 * minutes.fmod 1440)
  "datetime.timedelta(" ++ (if parts.isEmpty then "0" else join ", " parts) ++ ")"

/-- The explanation of what is out of range. -/
def OutOfRange.message : OutOfRange → String
  | .year n => s!"year {n} is out of range"
  | .month => "month must be in 1..12"
  | .day => "day is out of range for month"
  | .hour => "hour must be in 0..23"
  | .minute => "minute must be in 0..59"
  | .second => "second must be in 0..59"
  | .offset minutes =>
    "offset must be a timedelta strictly between -timedelta(hours=24) and timedelta(hours=24), not " ++
      spanShown minutes ++ "."

/-- A number with at least some digits. -/
def padded (width n : Nat) : String := String.ofList (Decimal.padded width n)

/-- A day of the calendar. -/
structure Date where
  year : Nat
  month : Nat
  day : Nat
deriving DecidableEq, Repr

namespace Date

/-- Whether a year has a leap day. -/
def isLeap (year : Nat) : Bool := year % 4 = 0 && (year % 100 != 0 || year % 400 = 0)

/-- The number of days of a month. -/
def daysIn (year month : Nat) : Nat :=
  if month = 2 then (if isLeap year then 29 else 28)
  else if month = 4 || month = 6 || month = 9 || month = 11 then 30
  else 31

/-- Finds the first part of a date that is out of range. -/
def check (d : Date) : Except OutOfRange Unit :=
  if d.year = 0 then .error (.year d.year)
  else if d.month = 0 ∨ 12 < d.month then .error .month
  else if d.day = 0 ∨ daysIn d.year d.month < d.day then .error .day
  else .ok ()

/-- The number of days from the beginning of the calendar to the end of a date. -/
def number (d : Date) : Nat :=
  let before := d.year - 1
  let months := (List.range d.month).tail
  365 * before + before / 4 - before / 100 + before / 400 + months.foldl (fun n m => n + daysIn d.year m) 0 + d.day

def text (d : Date) : String := padded 4 d.year ++ "-" ++ padded 2 d.month ++ "-" ++ padded 2 d.day

/-- The text of a date inside a message. -/
def shown (d : Date) : String := s!"datetime.date({d.year}, {d.month}, {d.day})"

end Date

/-- A time on a day. -/
structure Moment where
  date : Date
  hour : Nat
  minute : Nat
  second : Nat
  microsecond : Nat := 0
  /-- The minutes by which the time is ahead of universal time. -/
  offset : Option Int := none
deriving DecidableEq, Repr

namespace Moment

/-- Finds the first part of a moment that is out of range; the offset comes first. -/
def check (m : Moment) : Except OutOfRange Unit := do
  if let some minutes := m.offset then
    if 1440 ≤ minutes.natAbs then throw (.offset minutes)
  m.date.check
  if 23 < m.hour then throw .hour
  if 59 < m.minute then throw .minute
  if 59 < m.second then throw .second

def offsetText (minutes : Int) : String :=
  (if minutes < 0 then "-" else "+") ++ padded 2 (minutes.natAbs / 60) ++ ":" ++ padded 2 (minutes.natAbs % 60)

def text (m : Moment) : String :=
  m.date.text ++ " " ++ padded 2 m.hour ++ ":" ++ padded 2 m.minute ++ ":" ++ padded 2 m.second ++
    (if m.microsecond = 0 then "" else "." ++ padded 6 m.microsecond) ++ (m.offset.map offsetText).getD ""

/-- An offset inside a message. -/
def zoneShown (minutes : Int) : String :=
  if minutes = 0 then "datetime.timezone.utc" else "datetime.timezone(" ++ spanShown minutes ++ ")"

/-- The text of a moment inside a message, which leaves out a part of a minute that is zero. -/
def shown (m : Moment) : String :=
  let fine :=
    if m.microsecond != 0 then [m.second, m.microsecond] else if m.second != 0 then [m.second] else []
  let parts := ([m.date.year, m.date.month, m.date.day, m.hour, m.minute] ++ fine).map (toString ·)
  let zone := (m.offset.map fun o => "tzinfo=" ++ zoneShown o).toList
  "datetime.datetime(" ++ join ", " (parts ++ zone) ++ ")"

/-- The instant of a moment with an offset, in microseconds. -/
def instant (m : Moment) (offset : Int) : Int :=
  ((m.date.number * 1440 + m.hour * 60 + m.minute : Nat) - offset) * 60000000 +
    (m.second * 1000000 + m.microsecond : Nat)

/-- Whether two moments are the same. A moment without an offset is never the same as one with it. -/
def same (a b : Moment) : Bool :=
  match a.offset, b.offset with
  | none, none => a == b
  | some x, some y => a.instant x == b.instant y
  | _, _ => false

end Moment

end QasmCircuit
