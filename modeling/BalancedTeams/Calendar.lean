/-!
# Days and times of the calendar

* `Date` : a day, from the year 1 to the year 9999 (`Date.isValid`);
* `Timestamp` : a day with a time and, if it is known, the distance from UTC;
* `Timestamp.instant` : the microseconds that timestamps are compared by;
* `text`, `quoted` : a day or a timestamp inside a name, and inside a message.
-/

namespace BalancedTeams
namespace Calendar

/-- A number filled up with zeros to a width. -/
def padded (width n : Nat) : String :=
  let digits := toString n
  String.ofList (List.replicate (width - digits.length) '0') ++ digits

/-- Every fourth year, of the full centuries every fourth. -/
def isLeap (year : Nat) : Bool := year % 4 == 0 && (year % 100 != 0 || year % 400 == 0)

def monthLength (year month : Nat) : Nat :=
  if month = 2 then (if isLeap year then 29 else 28)
  else if [4, 6, 9, 11].contains month then 30
  else 31

def daysBeforeYear (year : Nat) : Nat :=
  let past := year - 1
  365 * past + past / 4 - past / 100 + past / 400

def daysBeforeMonth (year month : Nat) : Nat :=
  (List.range (month - 1)).foldl (fun n m => n + monthLength year (m + 1)) 0

end Calendar

structure Date where
  year : Nat
  month : Nat
  day : Nat
  deriving DecidableEq, Repr, Inhabited, Hashable

namespace Date

def isValid (d : Date) : Bool :=
  decide (1 ≤ d.year ∧ d.year ≤ 9999 ∧ 1 ≤ d.month ∧ d.month ≤ 12 ∧ 1 ≤ d.day ∧
    d.day ≤ Calendar.monthLength d.year d.month)

/-- The number of a day, counted from the first day of the year 1. -/
def ordinal (d : Date) : Nat :=
  Calendar.daysBeforeYear d.year + Calendar.daysBeforeMonth d.year d.month + (d.day - 1)

def text (d : Date) : String :=
  s!"{Calendar.padded 4 d.year}-{Calendar.padded 2 d.month}-{Calendar.padded 2 d.day}"

def quoted (d : Date) : String := s!"datetime.date({d.year}, {d.month}, {d.day})"

end Date

structure Timestamp where
  date : Date
  hour : Nat
  minute : Nat
  second : Nat
  microsecond : Nat
  /-- The minutes by which the clock is ahead of UTC. -/
  zone : Option Int
  deriving DecidableEq, Repr, Inhabited

namespace Timestamp

/-- A time on a day of the calendar, less than a day away from UTC. -/
def isValid (t : Timestamp) : Bool :=
  t.date.isValid && decide (t.hour < 24 ∧ t.minute < 60 ∧ t.second < 60) &&
    decide (t.microsecond < 1000000) && t.zone.all fun z => decide (z.natAbs < 1440)

/-- The microseconds since the year 1, in UTC where the zone is known. -/
def instant (t : Timestamp) : Int :=
  let minutes : Int := (t.date.ordinal * 24 + t.hour) * 60 + t.minute - t.zone.getD 0
  (minutes * 60 + t.second) * 1000000 + t.microsecond

/-- The distance from UTC in hours and minutes. -/
def zoneText (z : Int) : String :=
  let sign := if z < 0 then "-" else "+"
  s!"{sign}{Calendar.padded 2 (z.natAbs / 60)}:{Calendar.padded 2 (z.natAbs % 60)}"

def text (t : Timestamp) : String :=
  let hour := Calendar.padded 2 t.hour
  let minute := Calendar.padded 2 t.minute
  let second := Calendar.padded 2 t.second
  let fraction := if t.microsecond = 0 then "" else "." ++ Calendar.padded 6 t.microsecond
  s!"{t.date.text} {hour}:{minute}:{second}{fraction}" ++ (t.zone.map zoneText).getD ""

/-- A distance from UTC inside a message, where days are negative and seconds are not. -/
def zoneQuoted (z : Int) : String :=
  let seconds := z * 60
  if z = 0 then "datetime.timezone.utc"
  else if z < 0 then
    s!"datetime.timezone(datetime.timedelta(days=-1, seconds={seconds + 86400}))"
  else s!"datetime.timezone(datetime.timedelta(seconds={seconds}))"

/-- The seconds and microseconds of a time inside a message, without those at the end that are
zero. -/
def partsOfMinute (t : Timestamp) : List Nat :=
  if t.microsecond ≠ 0 then [t.second, t.microsecond]
  else if t.second ≠ 0 then [t.second]
  else []

def quoted (t : Timestamp) : String :=
  let parts := [t.date.year, t.date.month, t.date.day, t.hour, t.minute] ++ t.partsOfMinute
  let zone := (t.zone.map fun z => "tzinfo=" ++ zoneQuoted z).toList
  "datetime.datetime(" ++ ", ".intercalate (parts.map toString ++ zone) ++ ")"

end Timestamp
end BalancedTeams
