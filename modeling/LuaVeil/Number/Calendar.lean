/-
# Dates and times

An instant is a number of seconds since the beginning of 1970, in universal
time, and nanoseconds after it. `Instant.text` writes it by the Gregorian
calendar, which holds for all years, with the seconds and without fractions. A
leap second has more than a thousand million nanoseconds after second 59.
-/
import LuaVeil.Number.Digits

namespace LuaVeil

/-- A point in time. -/
structure Instant where
  seconds : Int
  nanoseconds : Nat
  deriving DecidableEq

/-- A day of the Gregorian calendar. -/
structure CivilDate where
  year : Int
  month : Nat
  day : Nat
  deriving DecidableEq

namespace CivilDate

/-- Days in 400 years. -/
def daysPerEra : Int := 146097

/-- Days from the first of March of year 0 to the first of January of 1970. -/
def daysToEpoch : Int := 719468

/--
The date that is some days after the first of January of 1970. Years are counted from March, so
that a leap day is the last day of its year; the months from March on then have 153 days in every
five.
-/
def ofDays (days : Int) : CivilDate :=
  let shifted := days + daysToEpoch
  let era := shifted.fdiv daysPerEra
  let dayOfEra := (shifted.fmod daysPerEra).toNat
  let yearOfEra := (dayOfEra - dayOfEra / 1460 + dayOfEra / 36524 - dayOfEra / 146096) / 365
  let dayOfYear := dayOfEra - (365 * yearOfEra + yearOfEra / 4 - yearOfEra / 100)
  let monthFromMarch := (5 * dayOfYear + 2) / 153
  let day := dayOfYear - (153 * monthFromMarch + 2) / 5 + 1
  let month := if monthFromMarch < 10 then monthFromMarch + 3 else monthFromMarch - 9
  let year := era * 400 + yearOfEra + (if month ≤ 2 then 1 else 0)
  ⟨year, month, day⟩

/-- A year: four digits from 0 to 9999, and a sign with at least four digits beyond. -/
def yearText (year : Int) : Text :=
  let digits := Number.padded 4 year.natAbs
  if year < 0 then '-' :: digits
  else if 9999 < year then '+' :: digits
  else digits

/-- A date as year, month and day. -/
def text (d : CivilDate) : Text :=
  yearText d.year ++ '-' :: Number.padded 2 d.month ++ '-' :: Number.padded 2 d.day

end CivilDate

namespace Instant

/-- Seconds in a day. -/
def secondsPerDay : Int := 86400

/-- A point in time as date and time, in universal time. -/
def text (t : Instant) : Text :=
  let date := CivilDate.ofDays (t.seconds.fdiv secondsPerDay)
  let second := (t.seconds.fmod secondsPerDay).toNat
  let clock := Number.padded 2 (second / 3600) ++ ':' :: Number.padded 2 (second / 60 % 60) ++
    ':' :: Number.padded 2 (second % 60 + t.nanoseconds / 1000000000)
  date.text ++ 'T' :: clock ++ ['Z']

end Instant
end LuaVeil
