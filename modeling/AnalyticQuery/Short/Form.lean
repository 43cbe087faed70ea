import AnalyticQuery.GeometryType
import AnalyticQuery.Ql.Tag
import AnalyticQuery.Short.Printer
import AnalyticQuery.Temporal.Literal

/-!
# Forms of short expressions

Each form has a template, the names of its arguments in their order, and a query value that it
stands for. Every form also takes the named arguments `as` and `cast`.
-/

namespace AnalyticQuery

/-- A form of short expressions. -/
inductive Form where
  | param
  | view
  | column
  | function
  | geo
  | point
  | wkt
  | fsa
  | postalcode
  | da
  | ct
  | array
  | list
  | cast
  | primitive
  | date
  | datetime
  | timedelta
  | operator
  | and
  | or
  | sql
  deriving DecidableEq, Repr

namespace Form

/-- All forms. -/
def all : List Form :=
  [param, view, column, function, geo, point, wkt, fsa, postalcode, da, ct, array, list, cast,
    primitive, date, datetime, timedelta, operator, and, or, sql]

/-- The name of a form. -/
def name : Form → String
  | param => "param"
  | view => "view"
  | column => "column"
  | function => "function"
  | geo => "geo"
  | point => "point"
  | wkt => "wkt"
  | fsa => "fsa"
  | postalcode => "postalcode"
  | da => "da"
  | ct => "ct"
  | array => "array"
  | list => "list"
  | cast => "cast"
  | primitive => "primitive"
  | date => "date"
  | datetime => "datetime"
  | timedelta => "timedelta"
  | operator => "operator"
  | and => "and"
  | or => "or"
  | sql => "sql"

/-- The names of a form's arguments, in their order. -/
def template : Form → List String
  | param => ["name"]
  | view => ["view"]
  | column => ["column", "view"]
  | function => ["name", "args", "distinct"]
  | geo => ["type", "args"]
  | point => ["lon", "lat"]
  | wkt => ["text"]
  | fsa | postalcode | da | ct => ["id"]
  | array | list => ["values"]
  | cast => ["value", "type"]
  | primitive => ["value"]
  | date => ["year", "month", "day", "delta"]
  | datetime => ["year", "month", "day", "hour", "minute", "second", "delta"]
  | timedelta => ["years", "months", "weeks", "days", "hours", "minutes", "seconds"]
  | operator => ["operator", "operands", "qualifier"]
  | and | or => ["operands"]
  | sql => ["sql"]

/-- The form with a name, in any case. -/
def ofName? (name : String) : Option Form := all.find? (·.name == name.toLower)

end Form

/-- The arguments of a form by their names. -/
structure FormArgs where
  /-- The form. -/
  form : Form
  /-- The arguments that are given. -/
  values : List (String × Argument)

namespace FormArgs

/-- A failure of the form's rules. -/
def fault (args : FormArgs) (detail : String) : Error :=
  .invalidShort s!"@{args.form.name}: {detail}"

/-- Adds an argument given by name. -/
def bindNamed (args : FormArgs) (entry : String × Argument) : Result FormArgs :=
  let (key, arg) := entry
  if !(args.form.template.contains key || key == "as" || key == "cast") then
    .error (.invalidShort s!"@{args.form.name} has no argument '{key}'")
  else if args.values.any (·.1 == key) then
    .error (.invalidShort s!"@{args.form.name}: argument '{key}' given twice")
  else .ok { args with values := args.values ++ [(key, arg)] }

/-- The arguments of a short expression under the names of a form's template. -/
def bind (form : Form) (s : Short) : Result FormArgs :=
  let most := form.template.length
  let got := s.positional.length
  if most < got then
    .error (.invalidShort
      s!"@{form.name} takes at most {most} positional arguments, got {got}")
  else s.named.foldlM bindNamed ⟨form, form.template.zip s.positional⟩

/-- An argument that is given and not null. -/
def get? (args : FormArgs) (key : String) : Option Argument :=
  (args.values.lookup key).filter (!·.isNull)

/-- The failure of a missing argument. -/
def missing (args : FormArgs) (key : String) : Error := args.fault s!"missing '{key}'"

/-- A required argument. -/
def required (args : FormArgs) (key : String) : Result Argument :=
  match args.get? key with
  | some arg => .ok arg
  | none => .error (args.missing key)

/-- A text argument, if it is given; a number is taken as its text. -/
def string? (args : FormArgs) (key : String) : Result (Option String) :=
  match args.get? key with
  | none => .ok none
  | some (.string s) => .ok (some s)
  | some (.number n) => .ok (some n.text)
  | some other => .error (args.fault s!"'{key}' must be a string, got {other.typeName}")

/-- A required text argument. -/
def string (args : FormArgs) (key : String) : Result String := do
  match ← args.string? key with
  | some s => return s
  | none => throw (args.missing key)

/-- An integer argument, if it is given; a text that writes an integer is taken as it. -/
def int? (args : FormArgs) (key : String) : Result (Option Int) :=
  match args.get? key with
  | none => .ok none
  | some (.number n) =>
    match n.int64? with
    | some i => .ok (some i)
    | none => .error (args.fault s!"'{key}' must be an integer, got {n.text}")
  | some (.string s) =>
    match Text.int64OfChars? (Text.trim s).toList with
    | some i => .ok (some i)
    | none => .error (args.fault s!"'{key}' must be an integer, got '{s}'")
  | some other => .error (args.fault s!"'{key}' must be an integer, got {other.typeName}")

/-- A required integer argument. -/
def int (args : FormArgs) (key : String) : Result Int := do
  match ← args.int? key with
  | some i => return i
  | none => throw (args.missing key)

/-- An integer argument, zero where it is not given. -/
def intOrZero (args : FormArgs) (key : String) : Result Int := do
  return (← args.int? key).getD 0

/-- A truth value argument, if it is given. -/
def bool? (args : FormArgs) (key : String) : Result (Option Bool) :=
  match args.get? key with
  | none => .ok none
  | some (.bool b) => .ok (some b)
  | some other => .error (args.fault s!"'{key}' must be a boolean, got {other.typeName}")

/-- The query value of a required argument. -/
def ql (args : FormArgs) (key : String) : Result Json := do
  return (← args.required key).toQl

/-- The query values of an array argument; a single value counts as an array of one. -/
def qlList (args : FormArgs) (key : String) : List Json :=
  match args.get? key with
  | none => []
  | some (.array items) => items.map Argument.toQl
  | some value => [value.toQl]

/-- The query value of a geometry. -/
def geometry (type : GeometryType) (args : List Json) : Json :=
  .object [("type", .string "geometry"), ("geometryType", .string type.name), ("args", .array args)]

/-- The query value of a place. -/
def place (args : FormArgs) (type : GeometryType) : Result Json := do
  return geometry type [← args.ql "id"]

/-- A literal, or its sum with the argument `delta` cast back to the literal's type. -/
def withDelta (args : FormArgs) (base : Json) (cast : CastType) : Result Json := do
  match args.get? "delta" with
  | none => return base
  | some delta =>
    let delta ← match delta with
      | .string text => pure (Temporal.castLiteral (← Interval.ofText text).text .interval)
      | .short s => pure (Argument.short s).toQl
      | other => throw (args.fault
          s!"delta must be an interval string or @timedelta, got {other.typeName}")
    return .object [("type", .string "operator"), ("value", .string "+"),
      ("operands", .array [base, delta]), ("cast", .string cast.name)]

/-- The query value of a constant. -/
def constant (args : FormArgs) : Result Json := do
  let value ← match args.get? "value" with
    | none => pure .null
    | some (.array _) | some (.json _) | some (.short _) =>
      throw (args.fault "value must be a string, number, boolean or null")
    | some value => pure value.toQl
  return .object [("type", .string "primitive"), ("value", value)]

/-- The interval that the arguments of `@timedelta` give. -/
def interval (args : FormArgs) : Result Interval := do
  let i : Interval := {
    years := ← args.intOrZero "years"
    months := ← args.intOrZero "months"
    weeks := ← args.intOrZero "weeks"
    days := ← args.intOrZero "days"
    hours := ← args.intOrZero "hours"
    minutes := ← args.intOrZero "minutes"
    seconds := ← args.intOrZero "seconds" }
  discard i.totalDays
  return i

/-- The query value that a form with its arguments stands for. -/
def expand (args : FormArgs) : Result Json :=
  match args.form with
  | .param => do
    return .object [("type", .string "parameter"), ("value", .string (← args.string "name"))]
  | .view => do
    return .object [("type", .string "view"), ("view", .string (← args.string "view"))]
  | .column => do
    let column ← args.string "column"
    let view := match ← args.string? "view" with
      | some view => [("view", Json.string view)]
      | none => []
    return .object ([("type", .string "column"), ("column", .string column)] ++ view)
  | .function => do
    let name ← args.string "name"
    let distinct :=
      if (← args.bool? "distinct").getD false then [("distinct", Json.bool true)] else []
    return .object ([("type", .string "function"), ("value", .string name),
      ("args", .array (args.qlList "args"))] ++ distinct)
  | .geo => do
    let type ← GeometryType.ofName (← args.string "type")
    return geometry type (args.qlList "args")
  | .point => do return geometry .point [← args.ql "lon", ← args.ql "lat"]
  | .wkt => do return geometry .wkt [← args.ql "text"]
  | .fsa => args.place .caFsa
  | .postalcode => args.place .caPostalcode
  | .da => args.place .caDa
  | .ct => args.place .caCt
  | .array => .ok (.object [("type", .string "array"), ("values", .array (args.qlList "values"))])
  | .list => .ok (.object [("type", .string "list"), ("values", .array (args.qlList "values"))])
  | .cast => do
    return .object [("type", .string "cast"), ("value", ← args.ql "value"),
      ("cast", .string (← args.string "type"))]
  | .primitive => args.constant
  | .date => do
    let literal ← Temporal.dateLiteral (← args.int "year") (← args.int "month") (← args.int "day")
    args.withDelta (Temporal.castLiteral literal .date) .date
  | .datetime => do
    let literal ← Temporal.dateTimeLiteral (← args.int "year") (← args.int "month")
      (← args.int "day") (← args.intOrZero "hour") (← args.intOrZero "minute")
      (← args.intOrZero "second")
    args.withDelta (Temporal.castLiteral literal .timestamp) .timestamp
  | .timedelta => do return Temporal.castLiteral (← args.interval).text .interval
  | .operator => do
    let name ← args.string "operator"
    let qualifier := match ← args.string? "qualifier" with
      | some qualifier => [("qualifier", Json.string qualifier)]
      | none => []
    return .object ([("type", .string "operator"), ("value", .string name),
      ("operands", .array (args.qlList "operands"))] ++ qualifier)
  | .and => .ok (.object [("type", .string "and"), ("operands", .array (args.qlList "operands"))])
  | .or => .ok (.object [("type", .string "or"), ("operands", .array (args.qlList "operands"))])
  | .sql => do return .object [("type", .string "sql"), ("value", .string (← args.string "sql"))]

end FormArgs

/-- The query value that a short expression stands for, with its alias and cast. -/
def Short.expand (s : Short) : Result Json := do
  match Form.ofName? s.name with
  | none => throw (.invalidShort s!"unknown short expression '@{s.name}'")
  | some form =>
    let args ← FormArgs.bind form s
    let value ← args.expand
    let label ← args.string? "as"
    let cast ← args.string? "cast"
    return value.tagged label cast

end AnalyticQuery
