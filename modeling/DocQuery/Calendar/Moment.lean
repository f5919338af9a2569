import DocQuery.Calendar.Date
import DocQuery.Text.Basic

/-! A date with a time of day, its place on the time line, and the two ways it is written. -/

namespace DocQuery

structure Moment where
  date : Date
  hour : Nat
  minute : Nat
  second : Nat
  nanosecond : Nat
deriving DecidableEq, Repr

namespace Moment

def isValid (m : Moment) : Bool :=
  m.date.isValid && m.hour < 24 && m.minute < 60 && m.second < 60

/-- Seconds from 1970-01-01 00:00:00 on the same clock. -/
def seconds (m : Moment) : Int :=
  m.date.dayNumber * 86400 + m.hour * 3600 + m.minute * 60 + m.second

/-- Nanoseconds from 1970-01-01 00:00:00 UTC, for a clock that is `offset` seconds ahead
of UTC. -/
def nanoseconds (m : Moment) (offset : Int) : Int :=
  (m.seconds - offset) * 1000000000 + m.nanosecond

/-- The moment in UTC that is `millis` milliseconds after 1970-01-01 00:00:00. -/
def ofMillis (millis : Int) : Moment :=
  let second := millis / 1000
  let ofDay := (second % 86400).toNat
  ⟨Date.ofDayNumber (second / 86400), ofDay / 3600, ofDay / 60 % 60, ofDay % 60,
    (millis % 1000).toNat * 1000000⟩

/-- The last second of a month. -/
def endsMonth (m : Moment) : Bool :=
  m.hour == 23 && m.minute == 59 && m.second == 59
    && m.date.day == Date.daysInMonth m.date.year m.date.month

/-- The digits after the point of the second, without trailing zeros. -/
def fractionDigits (m : Moment) : List Char :=
  ((Text.padded 9 m.nanosecond).reverse.dropWhile (· == '0')).reverse

/-- At least four digits; a sign before the common era and beyond the year 9999. -/
def yearText (year : Int) : List Char :=
  (if year < 0 then ['-'] else if 9999 < year then ['+'] else []) ++ Text.padded 4 year.natAbs

/-- The text such as `2020-12-12T10:00:00.5Z`; a whole second has no fraction. -/
def isoText (m : Moment) : String :=
  let two := Text.padded 2
  let fraction := m.fractionDigits
  String.ofList (yearText m.date.year ++ '-' :: two m.date.month ++ '-' :: two m.date.day
    ++ 'T' :: two m.hour ++ ':' :: two m.minute ++ ':' :: two m.second
    ++ (if fraction.isEmpty then [] else '.' :: fraction) ++ ['Z'])

/-- The text such as `2020-12-12 0:00:00.0 +00:00:00`; the hour is not padded, and the fraction
has at least one digit. -/
def plainText (m : Moment) : String :=
  let two := Text.padded 2
  let fraction := m.fractionDigits
  String.ofList (yearText m.date.year ++ '-' :: two m.date.month ++ '-' :: two m.date.day
    ++ ' ' :: Nat.toDigits 10 m.hour ++ ':' :: two m.minute ++ ':' :: two m.second
    ++ '.' :: (if fraction.isEmpty then ['0'] else fraction) ++ " +00:00:00".toList)

end Moment

end DocQuery
