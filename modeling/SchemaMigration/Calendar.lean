import SchemaMigration.Text

/-!
This module contains moments in time and how they are written: as an ISO 8601 timestamp and as the
stamp that orders migration files. Dates are Gregorian, the zone is UTC.
-/

namespace SchemaMigration

/-- A moment: milliseconds since the beginning of 1970. -/
structure Moment where
  millis : Int
  deriving DecidableEq, Repr

namespace Calendar

structure Date where
  year : Int
  month : Int
  day : Int
  deriving DecidableEq, Repr

/--
The date of a day, counted from the first day of 1970. Years are taken to begin in March, so that
the leap day is the last day of a year; four hundred years are one era of 146097 days.
-/
def Date.ofDays (days : Int) : Date :=
  let shifted := days + 719468
  let era := shifted / 146097
  let dayOfEra := shifted % 146097
  let yearOfEra := (dayOfEra - dayOfEra / 1460 + dayOfEra / 36524 - dayOfEra / 146096) / 365
  let dayOfYear := dayOfEra - (365 * yearOfEra + yearOfEra / 4 - yearOfEra / 100)
  let monthFromMarch := (5 * dayOfYear + 2) / 153
  let day := dayOfYear - (153 * monthFromMarch + 2) / 5 + 1
  let month := if monthFromMarch < 10 then monthFromMarch + 3 else monthFromMarch - 9
  ⟨yearOfEra + 400 * era + (if month ≤ 2 then 1 else 0), month, day⟩

def twoDigits (n : Int) : Text := Text.padZeros 2 (Text.ofInt n)

end Calendar

namespace Moment

def ofNanos (nanos : Int) : Moment := ⟨nanos.tdiv 1000000⟩

/-- The whole seconds of a moment; a fraction is dropped towards 1970. -/
def seconds (m : Moment) : Int := m.millis.tdiv 1000

def fraction (m : Moment) : Int := m.millis - 1000 * m.seconds

def date (m : Moment) : Calendar.Date := .ofDays (m.seconds / 86400)

def secondOfDay (m : Moment) : Int := m.seconds % 86400

def iso8601 (m : Moment) : Text :=
  Text.ofInt m.date.year ++ byte '-' :: Calendar.twoDigits m.date.month ++
    byte '-' :: Calendar.twoDigits m.date.day ++
    byte 'T' :: Calendar.twoDigits (m.secondOfDay / 3600) ++
    byte ':' :: Calendar.twoDigits (m.secondOfDay / 60 % 60) ++
    byte ':' :: Calendar.twoDigits (m.secondOfDay % 60) ++
    byte '.' :: Text.padZeros 3 (Text.ofInt m.fraction) ++ [byte 'Z']

/-- A moment as the fourteen digits that begin the name of a migration file. -/
def stamp (m : Moment) : Text :=
  Text.ofInt m.date.year ++ Calendar.twoDigits m.date.month ++ Calendar.twoDigits m.date.day ++
    Calendar.twoDigits (m.secondOfDay / 3600) ++
    Calendar.twoDigits (m.secondOfDay / 60 % 60) ++ Calendar.twoDigits (m.secondOfDay % 60)

def unixMillis (m : Moment) : Nat := (m.millis % (1 <<< 64 : Nat)).toNat

end Moment

end SchemaMigration
