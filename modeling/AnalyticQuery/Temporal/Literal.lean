import AnalyticQuery.CastType
import AnalyticQuery.Json.Basic
import AnalyticQuery.Temporal.Calendar
import AnalyticQuery.Temporal.Interval

/-!
# Literals of dates, times, intervals and shapes

The checked texts of days and times given by numbers, and the canonical query value of a text with a
cast.
-/

namespace AnalyticQuery.Temporal

/-- The text of the day with these numbers. -/
def dateLiteral (year month day : Int) : Result String :=
  match Date.ofParts? year month day with
  | some date => .ok date.text
  | none => .error (.invalidShort s!"invalid date {year}-{month}-{day}")

/-- The time of day with these numbers, if they are in their ranges. -/
def timeOfParts? (hour minute second : Int) : Option TimeOfDay :=
  if 0 ≤ hour ∧ 0 ≤ minute ∧ 0 ≤ second ∧ second < 60 then
    TimeOfDay.ofParts? hour.toNat minute.toNat second.toNat 0
  else none

/-- The text of the day and time with these numbers. -/
def dateTimeLiteral (year month day hour minute second : Int) : Result String := do
  let date ← dateLiteral year month day
  match timeOfParts? hour minute second with
  | some time => .ok s!"{date}T{time.clockText}"
  | none => .error (.invalidShort s!"invalid time {hour}:{minute}:{second}")

/-- A literal text with a cast as a query value. -/
def castLiteral (text : String) (cast : CastType) : Json :=
  .object [("type", .string "primitive"), ("value", .string text), ("cast", .string cast.name)]

/-- The day and time of a timestamp literal as text. -/
def timestampText (text : String) : Result String :=
  match dateTimeOfText? text with
  | some moment => .ok moment.text
  | none => .error (.invalidExpression s!"invalid timestamp literal '{text}'")

/-- The canonical query value of a text with a cast, for the casts whose literals have a canonical
form. -/
def lowerLiteral (text : String) (cast : CastType) : Result (Option Json) :=
  match cast with
  | .date =>
    match dateOfText? text with
    | some date => .ok (some (castLiteral date.text .date))
    | none => .error (.invalidExpression s!"invalid date literal '{text}'")
  | .timestamp => do
    return some (castLiteral (← timestampText text) .timestamp)
  | .timestamptz =>
    match zonedOfText? text with
    | some zoned => .ok (some (castLiteral zoned.text .timestamptz))
    | none => do return some (castLiteral (← timestampText text) .timestamptz)
  | .interval => do
    return some (castLiteral (← Interval.ofText text).text .interval)
  | .geometry =>
    .ok (some (.object [("type", .string "geometry"), ("geometryType", .string "wkt"),
      ("args", .array [.string text])]))
  | _ => .ok none

end AnalyticQuery.Temporal
