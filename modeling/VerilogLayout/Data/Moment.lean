import VerilogLayout.Text.Basic

/-!
# Dates and times

A `Moment` is a day of the calendar, a time of day, or a day with a time, which may say by how many
minutes its zone is ahead. `Moment.plain` is its text and `Moment.shown` its text in a message.
-/

namespace VerilogLayout

/-- A day of the calendar. -/
structure Day where
  year : Nat
  month : Nat
  day : Nat
deriving DecidableEq, Repr, Inhabited

namespace Day

/-- The number of days of a month. -/
def monthLength (year month : Nat) : Nat :=
  if month = 2 then
    if year % 4 = 0 ∧ (year % 100 ≠ 0 ∨ year % 400 = 0) then 29 else 28
  else if month = 4 ∨ month = 6 ∨ month = 9 ∨ month = 11 then 30
  else 31

/-- `isValid d` holds if the calendar has the day; its years start with the first. -/
def isValid (day : Day) : Bool :=
  1 ≤ day.year && 1 ≤ day.month && day.month ≤ 12 && 1 ≤ day.day &&
    day.day ≤ monthLength day.year day.month

end Day

/-- A time of day. -/
structure DayTime where
  hour : Nat
  minute : Nat
  second : Nat
  microsecond : Nat := 0
deriving DecidableEq, Repr, Inhabited

/-- A day, a time of day or both. -/
inductive Moment where
  | day (day : Day)
  | time (time : DayTime)
  /-- `ahead?` is the number of minutes that the zone is ahead, if there is one. -/
  | dayTime (day : Day) (time : DayTime) (ahead? : Option Int)
deriving DecidableEq, Repr, Inhabited

namespace Day

/-- The text of a day. -/
def plain (day : Day) : Text :=
  Text.padNat 4 day.year ++ "-" ++ Text.padNat 2 day.month ++ "-" ++ Text.padNat 2 day.day

end Day

namespace DayTime

/-- The text of a time. -/
def plain (time : DayTime) : Text :=
  let fraction : Text :=
    if time.microsecond = 0 then "" else "." ++ Text.padNat 6 time.microsecond
  Text.padNat 2 time.hour ++ ":" ++ Text.padNat 2 time.minute ++ ":" ++ Text.padNat 2 time.second ++
    fraction

/-- The numbers of a time in a message, without zeros at the end of the seconds. -/
def shownNumbers (time : DayTime) : List Nat :=
  [time.hour, time.minute] ++
    if time.microsecond = 0 then if time.second = 0 then [] else [time.second]
    else [time.second, time.microsecond]

end DayTime

namespace Moment

/-- The text of the minutes that a zone is ahead. -/
def zonePlain (ahead : Int) : Text :=
  (if ahead < 0 then "-" else "+") ++ Text.padNat 2 (ahead.natAbs / 60) ++ ":" ++
    Text.padNat 2 (ahead.natAbs % 60)

/-- A zone in a message. It is shown by days and seconds, of which only the days can be
negative. -/
def zoneShown (ahead : Int) : Text :=
  if ahead = 0 then
    "datetime.timezone.utc"
  else
    let days : Text := if ahead < 0 then "days=-1, " else ""
    "datetime.timezone(datetime.timedelta(" ++ days ++ "seconds=" ++
      Text.ofInt (60 * (ahead % 1440)) ++ "))"

/-- The text of a moment. -/
def plain : Moment → Text
  | day d => d.plain
  | time t => t.plain
  | dayTime d t ahead? => d.plain ++ " " ++ t.plain ++ (ahead?.map zonePlain).getD []

/-- The name of the kind of a moment. -/
def kindName : Moment → Text
  | day _ => "datetime.date"
  | time _ => "datetime.time"
  | dayTime _ _ _ => "datetime.datetime"

/-- A moment in a message. -/
def shown (moment : Moment) : Text :=
  let numbers (d : Day) : List Nat := [d.year, d.month, d.day]
  let arguments : List Text :=
    match moment with
    | day d => (numbers d).map Text.ofNat
    | time t => t.shownNumbers.map Text.ofNat
    | dayTime d t ahead? =>
        (numbers d ++ t.shownNumbers).map Text.ofNat ++
          ahead?.toList.map fun ahead => "tzinfo=" ++ zoneShown ahead
  moment.kindName ++ "(" ++ List.intercalate ", " arguments ++ ")"

end Moment
end VerilogLayout
