/-! The proleptic Gregorian calendar, with a year zero. -/

namespace DocQuery

structure Date where
  year : Int
  /-- January is 1. -/
  month : Nat
  /-- The first of a month is 1. -/
  day : Nat
deriving DecidableEq, Repr

namespace Date

def isLeapYear (year : Int) : Bool :=
  year % 4 == 0 && (year % 100 != 0 || year % 400 == 0)

def monthLengths (year : Int) : List Nat :=
  [31, if isLeapYear year then 29 else 28, 31, 30, 31, 30, 31, 31, 30, 31, 30, 31]

/-- Zero for a month outside 1 to 12. -/
def daysInMonth (year : Int) (month : Nat) : Nat :=
  if month = 0 then 0 else (monthLengths year).getD (month - 1) 0

def isValid (date : Date) : Bool :=
  1 ≤ date.day && date.day ≤ daysInMonth date.year date.month

/-- Days from the start of year zero to the start of `year`. -/
def daysBeforeYear (year : Int) : Int :=
  365 * year + (year + 3) / 4 - (year + 99) / 100 + (year + 399) / 400

/-- Days from the start of a year to the start of `month`. -/
def daysBeforeMonth (year : Int) (month : Nat) : Nat :=
  ((monthLengths year).take (month - 1)).foldl (· + ·) 0

/-- Days since 1970-01-01. -/
def dayNumber (date : Date) : Int :=
  daysBeforeYear date.year - daysBeforeYear 1970 + daysBeforeMonth date.year date.month
    + date.day - 1

/-- The month and the day of the month, for a day of the year counted from zero. -/
def monthOfDay (month : Nat) : List Nat → Nat → Nat × Nat
  | [], day => (month, day + 1)
  | length :: lengths, day =>
    if day < length then (month, day + 1) else monthOfDay (month + 1) lengths (day - length)

/-- The year that holds the day `days` after the start of year zero. -/
def yearOfDay (days : Int) : Int :=
  let near := days * 400 / 146097
  if days < daysBeforeYear near then near - 1
  else if daysBeforeYear (near + 1) ≤ days then near + 1
  else near

/-- The date that is `number` days after 1970-01-01. -/
def ofDayNumber (number : Int) : Date :=
  let days := number + daysBeforeYear 1970
  let year := yearOfDay days
  let (month, day) := monthOfDay 1 (monthLengths year) (days - daysBeforeYear year).toNat
  ⟨year, month, day⟩

end Date

end DocQuery
