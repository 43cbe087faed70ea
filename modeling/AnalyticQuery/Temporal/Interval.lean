import AnalyticQuery.Error
import AnalyticQuery.Text.Blank
import AnalyticQuery.Text.Integer
import AnalyticQuery.Text.Word

/-!
# Intervals

Amounts of time in calendar and clock units, read from texts such as `1 year 2 mons 04:05:06` and
written as `1 years 2 months 4 hours 5 minutes 6 seconds`.
-/

namespace AnalyticQuery

/-- A unit of an interval. -/
inductive IntervalUnit where
  | years
  | months
  | weeks
  | days
  | hours
  | minutes
  | seconds
  deriving DecidableEq, Repr

namespace IntervalUnit

/-- All units, the longest first. -/
def all : List IntervalUnit := [years, months, weeks, days, hours, minutes, seconds]

/-- The name of a unit. -/
def name : IntervalUnit → String
  | years => "years"
  | months => "months"
  | weeks => "weeks"
  | days => "days"
  | hours => "hours"
  | minutes => "minutes"
  | seconds => "seconds"

/-- The words that stand for a unit. -/
def spellings : List (String × IntervalUnit) :=
  [("y", years), ("yr", years), ("yrs", years), ("year", years), ("years", years),
    ("mon", months), ("mons", months), ("month", months), ("months", months),
    ("w", weeks), ("week", weeks), ("weeks", weeks),
    ("d", days), ("day", days), ("days", days),
    ("h", hours), ("hr", hours), ("hrs", hours), ("hour", hours), ("hours", hours),
    ("m", minutes), ("min", minutes), ("mins", minutes), ("minute", minutes), ("minutes", minutes),
    ("s", seconds), ("sec", seconds), ("secs", seconds), ("second", seconds), ("seconds", seconds)]

/-- The unit that a word in small letters stands for. -/
def ofName? (word : String) : Option IntervalUnit := spellings.lookup word

end IntervalUnit

/-- An amount of time in each unit. -/
structure Interval where
  /-- The number of years. -/
  years : Int := 0
  /-- The number of months. -/
  months : Int := 0
  /-- The number of weeks. -/
  weeks : Int := 0
  /-- The number of days. -/
  days : Int := 0
  /-- The number of hours. -/
  hours : Int := 0
  /-- The number of minutes. -/
  minutes : Int := 0
  /-- The number of seconds. -/
  seconds : Int := 0
  deriving DecidableEq, Repr

namespace Interval

/-- The amount in a unit. -/
def amount (i : Interval) : IntervalUnit → Int
  | .years => i.years
  | .months => i.months
  | .weeks => i.weeks
  | .days => i.days
  | .hours => i.hours
  | .minutes => i.minutes
  | .seconds => i.seconds

/-- The interval with another amount in a unit. -/
def setAmount (i : Interval) (n : Int) : IntervalUnit → Interval
  | .years => { i with years := n }
  | .months => { i with months := n }
  | .weeks => { i with weeks := n }
  | .days => { i with days := n }
  | .hours => { i with hours := n }
  | .minutes => { i with minutes := n }
  | .seconds => { i with seconds := n }

/-- Adds an amount in the unit that a word stands for; the sum has to fit a 64-bit word. -/
def add (i : Interval) (n : Int) (word : String) : Result Interval :=
  match IntervalUnit.ofName? word with
  | none => .error (.invalidExpression s!"unknown interval unit '{word}'")
  | some unit =>
    let sum := i.amount unit + n
    if Text.inInt64 sum then .ok (i.setAmount sum unit)
    else .error (.invalidExpression s!"interval {word} overflows")

/-- Weeks and days as a number of days, which has to fit a 64-bit word. -/
def totalDays (i : Interval) : Result Int :=
  let weekDays := i.weeks * 7
  if Text.inInt64 weekDays && Text.inInt64 (weekDays + i.days) then .ok (weekDays + i.days)
  else .error (.invalidExpression s!"interval of {i.weeks} weeks {i.days} days overflows")

/-- Whether all amounts are zero. -/
def isZero (i : Interval) : Bool := i == {}

/-- The text of an interval: the amounts that are not zero, the longest unit first. -/
def text (i : Interval) : String :=
  if i.isZero then "0 seconds"
  else
    let parts := IntervalUnit.all.filter (i.amount · != 0)
    " ".intercalate (parts.map fun unit => s!"{i.amount unit} {unit.name}")

/-- The amounts that are not zero in units of single words, weeks counted as days. -/
def terms (i : Interval) : Result (List (Int × String)) := do
  let days ← i.totalDays
  let terms := [(i.years, "YEAR"), (i.months, "MONTH"), (days, "DAY"), (i.hours, "HOUR"),
    (i.minutes, "MINUTE"), (i.seconds, "SECOND")].filter (·.1 != 0)
  return if terms.isEmpty then [(0, "SECOND")] else terms

/-! ## Reading -/

/-- A letter in small form under simple case folding, which also maps the long s and the Kelvin
sign. -/
def foldChar (c : Char) : Char :=
  if c == '\u017f' then 's' else if c == '\u212a' then 'k' else c.toLower

/-- An amount and a unit word at the front of a text, and the number of characters they take: a
sign, digits, blanks, and a word that stands for a unit and ends there. -/
def termAt? (cs : List Char) : Option ((List Char × List Char) × Nat) :=
  let (sign, unsigned) := match cs with
    | '-' :: rest => (['-'], rest)
    | '+' :: rest => (['+'], rest)
    | rest => ([], rest)
  let digits := unsigned.takeWhile Text.isDecimalDigit
  if digits.isEmpty then none
  else
    let blanks := (unsigned.drop digits.length).takeWhile Text.isBlank
    let word := (unsigned.drop (digits.length + blanks.length)).takeWhile Text.isWordChar
    if (IntervalUnit.ofName? (String.ofList (word.map foldChar))).isSome then
      some ((sign ++ digits, word), sign.length + digits.length + blanks.length + word.length)
    else none

/-- A clock reading: its sign, and the digits of hours, minutes and seconds. -/
structure Clock where
  /-- Whether the sign is minus. -/
  negative : Bool
  /-- The digits of the hours. -/
  hours : List Char
  /-- The digits of the minutes. -/
  minutes : List Char
  /-- The digits of the seconds. -/
  seconds : List Char

/-- Two digits after a colon. -/
def colonPair? : List Char → Option (List Char × List Char)
  | ':' :: a :: b :: rest =>
    if Text.isDecimalDigit a && Text.isDecimalDigit b then some ([a, b], rest) else none
  | _ => none

/-- A clock reading at the front of a text, and the number of characters it takes. -/
def clockAt? (cs : List Char) : Option (Clock × Nat) :=
  let (negative, signed, unsigned) := match cs with
    | '-' :: rest => (true, 1, rest)
    | '+' :: rest => (false, 1, rest)
    | rest => (false, 0, rest)
  let hours := unsigned.takeWhile Text.isDecimalDigit
  if hours.isEmpty then none
  else
    match colonPair? (unsigned.drop hours.length) with
    | none => none
    | some (minutes, rest) =>
      match colonPair? rest with
      | some (seconds, _) => some (⟨negative, hours, minutes, seconds⟩, signed + hours.length + 6)
      | none => some (⟨negative, hours, minutes, ['0']⟩, signed + hours.length + 3)

/-- The amounts with unit words in a text, and the characters with a mark on those that belong to
one; `inside` counts the characters of the current one still to come. -/
def findTerms : Nat → List Char → List (List Char × List Char) × List (Char × Bool)
  | _, [] => ([], [])
  | inside + 1, c :: cs =>
    let (found, marked) := findTerms inside cs
    (found, (c, true) :: marked)
  | 0, c :: cs =>
    match termAt? (c :: cs) with
    | some (term, length) =>
      let (found, marked) := findTerms (length - 1) cs
      (term :: found, (c, true) :: marked)
    | none =>
      let (found, marked) := findTerms 0 cs
      (found, (c, false) :: marked)

/-- The clock readings in a text that share no character with a marked one, and the characters with
a mark on those of the readings too; `inside` counts the characters of the current reading still to
come and tells whether they are marked. -/
def findClocks : Nat × Bool → List (Char × Bool) → List Clock × List (Char × Bool)
  | _, [] => ([], [])
  | (inside + 1, mark), (c, marked) :: cs =>
    let (found, rest) := findClocks (inside, mark) cs
    (found, (c, marked || mark) :: rest)
  | (0, _), (c, marked) :: cs =>
    match clockAt? (c :: cs.map (·.1)) with
    | some (clock, length) =>
      if (((c, marked) :: cs).take length).any (·.2) then
        let (found, rest) := findClocks (length - 1, false) cs
        (found, (c, marked) :: rest)
      else
        let (found, rest) := findClocks (length - 1, true) cs
        (clock :: found, (c, true) :: rest)
    | none =>
      let (found, rest) := findClocks (0, false) cs
      (found, (c, marked) :: rest)

/-- Adds an amount with its unit word as written. -/
def addTerm (invalid : Error) (i : Interval) (term : List Char × List Char) : Result Interval :=
  match Text.int64OfChars? term.1 with
  | none => .error invalid
  | some n => i.add n (String.ofList term.2).toLower

/-- Adds a clock reading. -/
def addClock (invalid : Error) (i : Interval) (clock : Clock) : Result Interval :=
  match Text.int64OfChars? clock.hours, Text.int64OfChars? clock.minutes,
      Text.int64OfChars? clock.seconds with
  | some hours, some minutes, some seconds => do
    let sign : Int := if clock.negative then -1 else 1
    let i ← i.add (sign * hours) "hours"
    let i ← i.add (sign * minutes) "minutes"
    i.add (sign * seconds) "seconds"
  | _, _, _ => .error invalid

/-- Reads an interval: amounts with unit words and clock readings, in any order, with nothing but
blanks and commas between them. -/
def ofText (s : String) : Result Interval := do
  let invalid := Error.invalidExpression s!"invalid interval '{s}'"
  let (terms, marked) := findTerms 0 s.toList
  let i ← terms.foldlM (addTerm invalid) {}
  let (clocks, marked) := findClocks (0, false) marked
  let i ← clocks.foldlM (addClock invalid) i
  let leftover := marked.any fun (c, inside) => !inside && !Text.isBlank c && c != ','
  if (terms.isEmpty && clocks.isEmpty) || leftover then throw invalid
  discard i.totalDays
  return i

end Interval

end AnalyticQuery
