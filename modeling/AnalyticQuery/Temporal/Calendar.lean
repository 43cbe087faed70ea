import AnalyticQuery.Text.Blank
import AnalyticQuery.Text.Integer

/-!
# Dates and times of day

Days of the Gregorian calendar and times of day down to the nanosecond, their ISO texts, and the
readers of the texts that date and timestamp literals may have.
-/

namespace AnalyticQuery

/-- A number with zeros in front up to a width. -/
def paddedNat (width n : Nat) : String :=
  let digits := toString n
  String.ofList (List.replicate (width - digits.length) '0') ++ digits

/-- Whether a year of the Gregorian calendar has a leap day. -/
def isLeapYear (year : Int) : Bool :=
  year % 4 == 0 && (year % 100 != 0 || year % 400 == 0)

/-- The number of days of a month. -/
def daysInMonth (year : Int) (month : Nat) : Nat :=
  if month = 2 then (if isLeapYear year then 29 else 28)
  else if month = 4 ∨ month = 6 ∨ month = 9 ∨ month = 11 then 30
  else 31

/-- The days that exist: a year of the supported range, one of its months, a day of that month. -/
def Date.Valid (year : Int) (month day : Nat) : Prop :=
  -262143 ≤ year ∧ year ≤ 262142 ∧ 1 ≤ month ∧ month ≤ 12 ∧ 1 ≤ day ∧ day ≤ daysInMonth year month

instance (year : Int) (month day : Nat) : Decidable (Date.Valid year month day) := by
  unfold Date.Valid
  infer_instance

/-- A day of the calendar. -/
structure Date where
  /-- The year; the year before 1 is 0. -/
  year : Int
  /-- The month, from 1 on. -/
  month : Nat
  /-- The day of the month, from 1 on. -/
  day : Nat
  /-- The day exists. -/
  valid : Date.Valid year month day
  deriving DecidableEq

namespace Date

/-- The day with these numbers, if it exists. -/
def ofParts? (year month day : Int) : Option Date :=
  if 0 ≤ month ∧ 0 ≤ day then
    if h : Valid year month.toNat day.toNat then some ⟨year, month.toNat, day.toNat, h⟩ else none
  else none

/-- The text of a year: four digits, and a sign outside the years 0 to 9999. -/
def yearText (year : Int) : String :=
  if 0 ≤ year ∧ year ≤ 9999 then paddedNat 4 year.toNat
  else (if year < 0 then "-" else "+") ++ paddedNat 4 year.natAbs

/-- The text of a day, such as `2024-02-29`. -/
def text (date : Date) : String :=
  s!"{yearText date.year}-{paddedNat 2 date.month}-{paddedNat 2 date.day}"

end Date

/-- A time of day; a second 60 is a leap second. -/
structure TimeOfDay where
  /-- The hour, below 24. -/
  hour : Nat
  /-- The minute, below 60. -/
  minute : Nat
  /-- The second, at most 60. -/
  second : Nat
  /-- The nanosecond, below a thousand million. -/
  nanosecond : Nat
  /-- The numbers are in their ranges. -/
  valid : hour < 24 ∧ minute < 60 ∧ second ≤ 60 ∧ nanosecond < 1000000000
  deriving DecidableEq

namespace TimeOfDay

/-- The start of a day. -/
def midnight : TimeOfDay := ⟨0, 0, 0, 0, by decide⟩

/-- The time with these numbers, if they are in their ranges. -/
def ofParts? (hour minute second nanosecond : Nat) : Option TimeOfDay :=
  if h : hour < 24 ∧ minute < 60 ∧ second ≤ 60 ∧ nanosecond < 1000000000 then
    some ⟨hour, minute, second, nanosecond, h⟩
  else none

/-- The text of the hour, the minute and the second. -/
def clockText (time : TimeOfDay) : String :=
  s!"{paddedNat 2 time.hour}:{paddedNat 2 time.minute}:{paddedNat 2 time.second}"

/-- The fraction of the second with its point: no, three, six or nine digits, as many as needed. -/
def fractionText (time : TimeOfDay) : String :=
  let n := time.nanosecond
  if n = 0 then ""
  else if n % 1000000 = 0 then "." ++ paddedNat 3 (n / 1000000)
  else if n % 1000 = 0 then "." ++ paddedNat 6 (n / 1000)
  else "." ++ paddedNat 9 n

end TimeOfDay

/-- A day and a time of day. -/
structure DateTime where
  /-- The day. -/
  date : Date
  /-- The time of day. -/
  time : TimeOfDay
  deriving DecidableEq

/-- The text of a day and time, such as `2024-02-29T10:20:30.500`. -/
def DateTime.text (moment : DateTime) : String :=
  s!"{moment.date.text}T{moment.time.clockText}{moment.time.fractionText}"

/-- A day and time at a distance from universal time. -/
structure ZonedDateTime where
  /-- The local day and time. -/
  moment : DateTime
  /-- The distance in minutes, positive to the east. -/
  offsetMinutes : Int
  deriving DecidableEq

/-- The text of a day and time with its distance from universal time, such as
`2024-02-29T10:20:30+05:30`. -/
def ZonedDateTime.text (zoned : ZonedDateTime) : String :=
  let minutes := zoned.offsetMinutes.natAbs
  let sign := if zoned.offsetMinutes < 0 then "-" else "+"
  s!"{zoned.moment.text}{sign}{paddedNat 2 (minutes / 60)}:{paddedNat 2 (minutes % 60)}"

/-! ## Reading -/

namespace Temporal

/-- Reads up to `most` decimal digits, one at least. -/
def digits? (most : Nat) (cs : List Char) : Option (Nat × List Char) :=
  let found := (cs.take most).takeWhile Char.isDigit
  (Text.natOfDigits? found).map fun n => (n, cs.drop found.length)

/-- Reads a number of up to `most` digits after any blanks. -/
def number? (most : Nat) (cs : List Char) : Option (Nat × List Char) :=
  digits? most (Text.trimStart cs)

/-- Reads a year after any blanks: four digits at most, or a sign and any number of digits. -/
def year? (cs : List Char) : Option (Int × List Char) :=
  match Text.trimStart cs with
  | '-' :: cs => (digits? cs.length cs).map fun (n, rest) => (-(n : Int), rest)
  | '+' :: cs => (digits? cs.length cs).map fun (n, rest) => ((n : Int), rest)
  | cs => (digits? 4 cs).map fun (n, rest) => ((n : Int), rest)

/-- Reads one given character. -/
def char? (c : Char) : List Char → Option (List Char)
  | d :: cs => if c == d then some cs else none
  | [] => none

/-- Reads a day: year, month and day with hyphens between them. -/
def date? (cs : List Char) : Option (Date × List Char) := do
  let (year, cs) ← year? cs
  let cs ← char? '-' cs
  let (month, cs) ← number? 2 cs
  let cs ← char? '-' cs
  let (day, cs) ← number? 2 cs
  return (← Date.ofParts? year month day, cs)

/-- The nanoseconds that the digits of a fraction write; digits after the ninth are dropped. -/
def nanosecondsOf (ds : List Char) : Option Nat :=
  (Text.natOfDigits? ((ds ++ List.replicate (9 - ds.length) '0').take 9))

/-- Reads the fraction of a second, if a point stands in front. -/
def fraction? : List Char → Option (Nat × List Char)
  | '.' :: cs =>
    match cs.span Char.isDigit with
    | ([], _) => none
    | (ds, rest) => (nanosecondsOf ds).map fun n => (n, rest)
  | cs => some (0, cs)

/-- How the day and the time are divided. -/
inductive Divider where
  /-- By the letter `T`. -/
  | letter
  /-- By any blanks, or none. -/
  | blank

/-- Reads what divides the day and the time. -/
def divider? : Divider → List Char → Option (List Char)
  | .letter, cs => char? 'T' cs
  | .blank, cs => some (Text.trimStart cs)

/-- Reads a whole text as a day and a time, with seconds and their fraction or without them. -/
def dateTimeWith? (divider : Divider) (withSeconds : Bool) (cs : List Char) : Option DateTime := do
  let (date, cs) ← date? cs
  let cs ← divider? divider cs
  let (hour, cs) ← number? 2 cs
  let cs ← char? ':' cs
  let (minute, cs) ← number? 2 cs
  let (second, nanosecond, cs) ←
    if withSeconds then do
      let cs ← char? ':' cs
      let (second, cs) ← number? 2 cs
      let (nanosecond, cs) ← fraction? cs
      some (second, nanosecond, cs)
    else some (0, 0, cs)
  if cs.isEmpty then
    return ⟨date, ← TimeOfDay.ofParts? hour minute second nanosecond⟩
  else none

/-- The day that a text between blanks writes. -/
def dateOfText? (s : String) : Option Date :=
  match date? (Text.trim s).toList with
  | some (date, []) => some date
  | _ => none

/-- The day and time that a text between blanks writes; a day alone is its midnight. -/
def dateTimeOfText? (s : String) : Option DateTime :=
  let cs := (Text.trim s).toList
  dateTimeWith? .letter true cs <|> dateTimeWith? .blank true cs <|>
    dateTimeWith? .letter false cs <|> dateTimeWith? .blank false cs <|>
    (dateOfText? s).map (⟨·, .midnight⟩)

/-- Reads exactly `count` decimal digits. -/
def exactDigits? (count : Nat) (cs : List Char) : Option (Nat × List Char) :=
  let found := cs.take count
  if found.length = count then (Text.natOfDigits? found).map fun n => (n, cs.drop count) else none

/-- Reads the distance from universal time in minutes: `Z`, or a sign, hours and minutes. -/
def offset? : List Char → Option (Int × List Char)
  | [] => none
  | c :: cs =>
    if c == 'Z' || c == 'z' then some (0, cs)
    else if c == '+' || c == '-' || c == '−' then do
      let (hours, cs) ← exactDigits? 2 cs
      let cs ← char? ':' cs
      let (minutes, cs) ← exactDigits? 2 cs
      if hours < 24 ∧ minutes < 60 then
        let total : Int := hours * 60 + minutes
        some (if c == '+' then total else -total, cs)
      else none
    else none

/-- The day and time with an offset that a text between blanks writes in the strict form
`2024-02-29T10:20:30.5+05:30`. -/
def zonedOfText? (s : String) : Option ZonedDateTime := do
  let cs := (Text.trim s).toList
  let (year, cs) ← exactDigits? 4 cs
  let cs ← char? '-' cs
  let (month, cs) ← exactDigits? 2 cs
  let cs ← char? '-' cs
  let (day, cs) ← exactDigits? 2 cs
  let cs ← char? 'T' cs <|> char? 't' cs <|> char? ' ' cs
  let (hour, cs) ← exactDigits? 2 cs
  let cs ← char? ':' cs
  let (minute, cs) ← exactDigits? 2 cs
  let cs ← char? ':' cs
  let (second, cs) ← exactDigits? 2 cs
  let (nanosecond, cs) ← fraction? cs
  let (offset, cs) ← offset? cs
  if cs.isEmpty then
    return ⟨⟨← Date.ofParts? year month day, ← TimeOfDay.ofParts? hour minute second nanosecond⟩,
      offset⟩
  else none

end Temporal

end AnalyticQuery
