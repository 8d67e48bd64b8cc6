/-!
# Dates and times

A day of the Gregorian calendar, and a time of such a day, which may tell by how many minutes its
zone is ahead of the standard one.
-/

namespace TypeAlias.Data

/-- A day of the calendar. -/
structure Date where
  year : Nat
  month : Nat
  day : Nat
  deriving DecidableEq

/-- A time of a day. -/
structure Timestamp where
  date : Date
  hour : Nat
  minute : Nat
  second : Nat
  microsecond : Nat := 0
  /-- The minutes by which the zone is ahead, if the zone is known. -/
  zone : Option Int := none
  deriving DecidableEq

/-- Why numbers are no date or no time. -/
inductive CalendarFault where
  | year (n : Nat)
  | month
  | day
  | hour
  | minute
  | second
  /-- The zone is a day or more ahead or behind. -/
  | zone (minutes : Int)
  deriving DecidableEq

/-! ## Written forms -/

/-- A number with at least a given number of digits. -/
def paddedNumber (width n : Nat) : String :=
  let digits := Nat.toDigits 10 n
  String.ofList (List.replicate (width - digits.length) '0' ++ digits)

/-- A call with its arguments, as a value is shown. -/
def callShown (name : String) (arguments : List String) : String :=
  name ++ "(" ++ ", ".intercalate arguments ++ ")"

/-- A span of time as it is shown: whole days, of which there may be fewer than none, and the
seconds of the last day. -/
def spanShown (minutes : Int) : String :=
  let days := minutes / 1440
  let seconds := minutes % 1440 * 60
  callShown "datetime.timedelta"
    ((if days = 0 then [] else ["days=" ++ toString days]) ++
      (if seconds = 0 then [] else ["seconds=" ++ toString seconds]))

/-- What is said of numbers that are no date or no time. -/
def CalendarFault.message : CalendarFault → String
  | year n => "year " ++ toString n ++ " is out of range"
  | month => "month must be in 1..12"
  | day => "day is out of range for month"
  | hour => "hour must be in 0..23"
  | minute => "minute must be in 0..59"
  | second => "second must be in 0..59"
  | zone minutes =>
    "offset must be a timedelta strictly between -timedelta(hours=24) and " ++
      "timedelta(hours=24), not " ++ spanShown minutes ++ "."

namespace Date

/-- Whether a year has a leap day. -/
def isLeapYear (year : Nat) : Bool :=
  year % 4 = 0 && (year % 100 ≠ 0 || year % 400 = 0)

/-- The number of days in a month. -/
def daysIn (year month : Nat) : Nat :=
  if month = 2 then if isLeapYear year then 29 else 28
  else if month ∈ [4, 6, 9, 11] then 30
  else 31

/-- The day with given numbers, of which years go from 1 to 9999. -/
def ofNumbers (year month day : Nat) : Except CalendarFault Date :=
  if year = 0 ∨ 9999 < year then .error (.year year)
  else if month = 0 ∨ 12 < month then .error .month
  else if day = 0 ∨ daysIn year month < day then .error .day
  else .ok ⟨year, month, day⟩

/-- The written form of a day. -/
def text (d : Date) : String :=
  paddedNumber 4 d.year ++ "-" ++ paddedNumber 2 d.month ++ "-" ++ paddedNumber 2 d.day

/-- How a day is shown inside a list or a mapping. -/
def shown (d : Date) : String :=
  callShown "datetime.date" [toString d.year, toString d.month, toString d.day]

end Date

namespace Timestamp

/-- The time, if its parts are in their bounds. -/
def checked (t : Timestamp) : Except CalendarFault Timestamp := do
  match t.zone with
  | some minutes => if 1440 ≤ minutes.natAbs then throw (.zone minutes)
  | none => pure ()
  let date ← Date.ofNumbers t.date.year t.date.month t.date.day
  if 23 < t.hour then throw .hour
  else if 59 < t.minute then throw .minute
  else if 59 < t.second then throw .second
  else return { t with date }

/-- The written form of a zone. -/
def zoneText (minutes : Int) : String :=
  (if minutes < 0 then "-" else "+") ++ paddedNumber 2 (minutes.natAbs / 60) ++ ":" ++
    paddedNumber 2 (minutes.natAbs % 60)

/-- The written form of a time. -/
def text (t : Timestamp) : String :=
  t.date.text ++ " " ++ paddedNumber 2 t.hour ++ ":" ++ paddedNumber 2 t.minute ++ ":" ++
    paddedNumber 2 t.second ++
    (if t.microsecond = 0 then "" else "." ++ paddedNumber 6 t.microsecond) ++
    ((t.zone.map zoneText).getD "")

/-- How a zone is shown. -/
def zoneShown (minutes : Int) : String :=
  if minutes = 0 then "datetime.timezone.utc" else callShown "datetime.timezone" [spanShown minutes]

/-- How a time is shown inside a list or a mapping; seconds and their fraction are left out when
they and what follows them are zero. -/
def shown (t : Timestamp) : String :=
  let seconds := if t.second = 0 ∧ t.microsecond = 0 then [] else [t.second]
  let fraction := if t.microsecond = 0 then [] else [t.microsecond]
  let numbers := [t.date.year, t.date.month, t.date.day, t.hour, t.minute] ++ seconds ++ fraction
  callShown "datetime.datetime"
    (numbers.map toString ++ (t.zone.map fun z => "tzinfo=" ++ zoneShown z).toList)

end Timestamp

end TypeAlias.Data
