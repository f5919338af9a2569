import DocQuery.Calendar.Moment

/-! The spellings in which an instant may be given. Reading gives nanoseconds since
1970-01-01 00:00:00 UTC. -/

namespace DocQuery

/-- The accepted spellings of an instant. -/
inductive Spelling where
  /-- `2020-12-12T07:00:00.5+07:00`: any single ASCII separator, the fraction is optional, and the
  offset has a colon or is `Z`. -/
  | colonOffset
  /-- `2020-12-12T07:00:00+0700` -/
  | compactOffset
  /-- `2020-12-12T07:00:00.5+0700` -/
  | compactOffsetFraction
  /-- `2020-12-12 07:00:00` -/
  | spaced
  /-- `2020-12-12T07:00:00` -/
  | joined
  /-- `2020-12-12` -/
  | dateOnly
deriving DecidableEq, Repr

namespace Spelling

/-- The order in which spellings are tried. -/
def all : List Spelling :=
  [colonOffset, compactOffset, compactOffsetFraction, spaced, joined, dateOnly]

def literal (c : Char) : List Char → Option (List Char)
  | d :: text => if d = c then some text else none
  | [] => none

/-- Exactly `n` decimal digits. -/
def number (n : Nat) (text : List Char) : Option (Nat × List Char) :=
  let digits := text.take n
  if digits.length = n ∧ digits.all Char.isDigit then
    some (Text.decimalValue digits, text.drop n)
  else none

/-- A year without a sign has four digits, a signed one four to six. -/
def signedYear (text : List Char) : Option (Int × List Char) :=
  let long (text : List Char) : Option (Nat × List Char) :=
    let digits := (text.take 6).takeWhile Char.isDigit
    if 4 ≤ digits.length then some (Text.decimalValue digits, text.drop digits.length) else none
  match text with
  | '+' :: text => (long text).map fun (year, rest) => (Int.ofNat year, rest)
  | '-' :: text => (long text).map fun (year, rest) => (-Int.ofNat year, rest)
  | text => (number 4 text).map fun (year, rest) => (Int.ofNat year, rest)

def plainYear (text : List Char) : Option (Int × List Char) :=
  (number 4 text).map fun (year, rest) => (Int.ofNat year, rest)

/-- A date whose year is read by `year`. -/
def date (year : List Char → Option (Int × List Char)) (text : List Char) :
    Option (Date × List Char) := do
  let (year, text) ← year text
  let (month, text) ← number 2 (← literal '-' text)
  let (day, text) ← number 2 (← literal '-' text)
  return (⟨year, month, day⟩, text)

/-- Hour, minute and second on the given date. -/
def clock (date : Date) (text : List Char) : Option (Moment × List Char) := do
  let (hour, text) ← number 2 text
  let (minute, text) ← number 2 (← literal ':' text)
  let (second, text) ← number 2 (← literal ':' text)
  return (⟨date, hour, minute, second, 0⟩, text)

/-- The nanoseconds of a fraction of at least one and at most `limit` digits. Digits beyond
nanoseconds are ignored. -/
def fraction (limit : Nat) (text : List Char) : Option (Nat × List Char) :=
  let digits := (text.take limit).takeWhile Char.isDigit
  if digits.isEmpty then none
  else
    some (Text.decimalValue ((digits ++ List.replicate 9 '0').take 9), text.drop digits.length)

/-- A signed offset in seconds, at most `maxHour` hours; `separator` reads what stands between
hours and minutes. -/
def offset (maxHour : Nat) (separator : List Char → Option (List Char)) (text : List Char) :
    Option (Int × List Char) := do
  let (negative, text) ← match text with
    | '+' :: text => some (false, text)
    | '-' :: text => some (true, text)
    | _ => none
  let (hour, text) ← number 2 text
  let (minute, text) ← number 2 (← separator text)
  if hour ≤ maxHour ∧ minute ≤ 59 then
    let seconds : Int := hour * 3600 + minute * 60
    return (if negative then -seconds else seconds, text)
  else none

def zone (text : List Char) : Option (Int × List Char) :=
  match text with
  | 'Z' :: text => some (0, text)
  | 'z' :: text => some (0, text)
  | text => offset 23 (literal ':') text

/-- The instant of a valid moment. -/
def instant (m : Moment) (offset : Int) : Option Int :=
  if m.isValid then some (m.nanoseconds offset) else none

/-- The instant of a moment that may name a leap second: second 60 stands for the end of second
59, and only at the end of a month in UTC. -/
def leapInstant (m : Moment) (offset : Int) : Option Int := do
  if m.second = 60 then
    let standIn := { m with second := 59, nanosecond := 999999999 }
    let nanos ← instant standIn offset
    if (Moment.ofMillis (nanos / 1000000)).endsMonth then some nanos else none
  else instant m offset

/-- Nothing may follow the last part. -/
def atEnd {α : Type} : α × List Char → Option α
  | (result, []) => some result
  | (_, _ :: _) => none

/-- Nanoseconds since 1970-01-01 00:00:00 UTC of a text in the given spelling. -/
def read (spelling : Spelling) (text : List Char) : Option Int :=
  match spelling with
  | colonOffset => do
    let (date, text) ← date plainYear text
    let text ← match text with
      | c :: text => if c.toNat < 128 then some text else none
      | [] => none
    let (moment, text) ← clock date text
    let (nanos, text) ← match text with
      | '.' :: rest => fraction rest.length rest
      | text => some (0, text)
    let offset ← (zone text).bind atEnd
    leapInstant { moment with nanosecond := nanos } offset
  | compactOffset => do
    let (date, text) ← date signedYear text
    let (moment, text) ← clock date (← literal 'T' text)
    let offset ← (offset 25 some text).bind atEnd
    instant moment offset
  | compactOffsetFraction => do
    let (date, text) ← date signedYear text
    let (moment, text) ← clock date (← literal 'T' text)
    let (nanos, text) ← fraction 32 (← literal '.' text)
    let offset ← (offset 25 some text).bind atEnd
    instant { moment with nanosecond := nanos } offset
  | spaced => do
    let (date, text) ← date signedYear text
    let moment ← (clock date (← literal ' ' text)).bind atEnd
    instant moment 0
  | joined => do
    let (date, text) ← date signedYear text
    let moment ← (clock date (← literal 'T' text)).bind atEnd
    instant moment 0
  | dateOnly => do
    let date ← (date signedYear text).bind atEnd
    instant ⟨date, 0, 0, 0, 0⟩ 0

/-- The instant of a text in the first spelling that fits, in milliseconds since
1970-01-01 00:00:00 UTC; parts of a millisecond are cut off toward zero. -/
def readMillis (text : List Char) : Option Int :=
  (all.findSome? fun spelling => read spelling text).map (Int.tdiv · 1000000)

end Spelling

end DocQuery
