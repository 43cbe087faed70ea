import AnalyticQuery.Engine.Basic
import AnalyticQuery.GeometryType
import AnalyticQuery.Operator
import AnalyticQuery.Options
import AnalyticQuery.Temporal.Interval
import AnalyticQuery.Tree.Node

/-!
# SQL of single constructs

The SQL of a construct from the SQL of its parts. The engines differ in casts, shapes, some
functions and operators, comparisons with an array, and the order of the last clauses.
-/

namespace AnalyticQuery

/-- SQL texts with commas between them. -/
def commaList (parts : List String) : String := ", ".intercalate parts

/-- A name as an SQL identifier: in double quotes, a quote inside written twice. -/
def quoteIdent (name : String) : String :=
  String.ofList
    ('"' :: name.toList.flatMap (fun c => if c == '"' then ['"', '"'] else [c]) ++ ['"'])

/-- The subquery that looks up the shape of a place. -/
def placeLookup (table geometry : String) (type : GeometryType) (id : String) : String :=
  s!"(SELECT {geometry} FROM {table} WHERE type = '{type.name}' AND local_id = {id})"

/-- The value of a context function. -/
def contextValue (options : SqlOptions) (name : String) : Result String :=
  let value := match name with
    | "whitelabel_id" => options.whitelabelId
    | "customer_id" => options.customerId
    | _ => none
  match value with
  | some id => .ok (toString id)
  | none => .error (.missingContext name)

/-- The word `DISTINCT` with a blank after it, where it is asked for. -/
def distinctWord (distinct : Bool) : String := if distinct then "DISTINCT " else ""

namespace Engine

/-- An interval as a sum of Trino's single-unit intervals. -/
def trinoInterval (i : Interval) : Result String := do
  match (← i.terms).map fun (n, unit) => s!"INTERVAL '{n}' {unit}" with
  | [single] => return single
  | terms =>
    let sum := " + ".intercalate terms
    return s!"({sum})"

/-- A cast. Trino reads dates, timestamps and intervals from their literals. -/
def cast (engine : Engine) (sql : String) (type : CastType) (literal : Option Primitive) :
    Result String :=
  let plain := s!"CAST({sql} AS {engine.castTypeName type})"
  match engine with
  | .pg => .ok plain
  | .trino =>
    match type, literal.bind Primitive.string? with
    | .date, some _ => .ok s!"from_iso8601_date({sql})"
    | .timestamp, some _ => .ok s!"CAST(from_iso8601_timestamp({sql}) AS timestamp)"
    | .timestamptz, some _ => .ok s!"from_iso8601_timestamp({sql})"
    | .interval, some text => do trinoInterval (← Interval.ofText text)
    | .geometry, _ => .ok s!"ST_GeometryFromText({sql})"
    | _, _ => .ok plain

/-- The table in which an engine looks up places. -/
def placeTable : Engine → String
  | .pg => "geo_place"
  | .trino => "locus_place.public.geo_place"

/-- The column or expression with the shape of a place. -/
def placeShape : Engine → String
  | .pg => "geometry"
  | .trino => "ST_GeomFromBinary(geometry)"

/-- A shape. -/
def geometry (engine : Engine) (type : GeometryType) (args : List String) : Result String :=
  match engine, type, args with
  | .pg, .point, [lon, lat] => .ok s!"ST_SetSRID(ST_MakePoint({lon}, {lat}), 4326)"
  | .pg, .wkt, [text] => .ok s!"ST_GeomFromText({text}, 4326)"
  | .trino, .point, [lon, lat] => .ok s!"ST_Point({lon}, {lat})"
  | .trino, .wkt, [text] => .ok s!"ST_GeometryFromText({text})"
  | engine, place, [id] =>
    if place.isPlace then .ok (placeLookup engine.placeTable engine.placeShape place id)
    else .error (.argsLength type.name s!"cannot render {args.length} arguments")
  | _, _, _ => .error (.argsLength type.name s!"cannot render {args.length} arguments")

/-- The keywords that Trino extracts from a point in time. -/
def trinoFields : List String :=
  ["year", "quarter", "month", "week", "day", "dow", "doy", "hour", "minute", "second"]

/-- The extraction of a part of a point in time; Trino needs a keyword for it. -/
def trinoDatePart (field value : String) : Result String :=
  match (unquoteLiteral? field).map String.toLower with
  | some name =>
    if trinoFields.contains name then .ok s!"extract({name.toUpper} FROM {value})"
    else .error (.invalidExpression s!"date_part: trino cannot extract {field}")
  | none => .error (.invalidExpression s!"date_part: trino cannot extract {field}")

/-- Trino's path into a JSON value: one literal where all its steps are literals. -/
def trinoJsonPath (path : List String) : String :=
  match path.mapM unquoteLiteral? with
  | some keys => quoteLiteral ("$." ++ ".".intercalate keys)
  | none =>
    let steps := commaList (path.map fun step => s!"'.', {step}")
    s!"concat('$', {steps})"

/-- An engine's own SQL of a function call, where it has one. -/
def function? (engine : Engine) (name : String) (args : List String) (distinct : Bool) :
    Result (Option String) :=
  match engine, name, args with
  | .pg, "json_extract", json :: path => .ok s!"json_extract_path({json}, {commaList path})"
  | .pg, "array_length", [array] => .ok s!"array_length({array}, 1)"
  | _, "geo_intersects", [a, b] => .ok s!"ST_Intersects({a}, {b})"
  | _, "geo_within", [a, b] => .ok s!"ST_Within({a}, {b})"
  | .pg, "geo_distance", [a, b] => .ok s!"ST_Distance(({a})::geography, ({b})::geography)"
  | .pg, "geo_area", [a] => .ok s!"ST_Area(({a})::geography)"
  | .trino, "date_part", [field, value] => do return some (← trinoDatePart field value)
  | .trino, "json_extract", json :: path => .ok s!"json_extract({json}, {trinoJsonPath path})"
  | .trino, "array_length", [array] => .ok s!"cardinality({array})"
  | .trino, "string_agg", [value, separator] =>
    .ok s!"array_join(array_agg({distinctWord distinct}{value}), {separator})"
  | .trino, "geo_distance", [a, b] =>
    .ok s!"ST_Distance(to_spherical_geography({a}), to_spherical_geography({b}))"
  | .trino, "geo_area", [a] => .ok s!"ST_Area(to_spherical_geography({a}))"
  | _, _, _ => .ok none

/-- An engine's own SQL of an operator, where it has one. -/
def operator? (engine : Engine) (op : Operator) (operands : List String) : Option String :=
  match engine, op, operands with
  | .trino, .matches, [a, b] => some s!"regexp_like({a}, {b})"
  | .trino, .matchesAnyCase, [a, b] => some s!"regexp_like({a}, concat('(?i)', {b}))"
  | .trino, .notMatches, [a, b] => some s!"(NOT regexp_like({a}, {b}))"
  | .trino, .ilike, [a, b] => some s!"(lower({a}) LIKE lower({b}))"
  | .trino, .notIlike, [a, b] => some s!"(lower({a}) NOT LIKE lower({b}))"
  | .trino, .overlaps, [a, b] => some s!"arrays_overlap({a}, {b})"
  | .trino, .contains, [a, b] => some s!"(cardinality(array_except({b}, {a})) = 0)"
  | .trino, .containedIn, [a, b] => some s!"(cardinality(array_except({a}, {b})) = 0)"
  | _, _, _ => none

/-- The name of the element in Trino's conditions on all elements of an array. -/
def trinoElement : String := "q_elem"

/-- A comparison with some or each element of an array. -/
def qualified (engine : Engine) (op : Operator) (qualifier : Qualifier) (left right : String) :
    String :=
  match engine with
  | .pg => s!"({left} {op.token} {qualifier.name.toUpper}({right}))"
  | .trino =>
    if op == .eq && qualifier == .any then s!"contains({right}, {left})"
    else
      let comparison := (engine.operator? op [left, trinoElement]).getD
        s!"{left} {op.token} {trinoElement}"
      let function := match qualifier with
        | .any => "any_match"
        | .all => "all_match"
      s!"{function}({right}, {trinoElement} -> {comparison})"

/-- An array. -/
def array (_ : Engine) (items : List String) : String := s!"ARRAY[{commaList items}]"

/-- The clause of a limit. -/
def limitClause : Limit → String
  | .count rows => s!"LIMIT {rows}"
  | .all => "LIMIT ALL"

/-- The last clauses of a select, in the order that the engine expects. -/
def limitOffset (engine : Engine) (limit : Option Limit) (offset : Option Nat) : List String :=
  let limit := (limit.map limitClause).toList
  let offset := (offset.map fun rows => s!"OFFSET {rows}").toList
  match engine with
  | .pg => limit ++ offset
  | .trino => offset ++ limit

/-- An operator between, before or around its operands. -/
def operation (engine : Engine) (op : Operator) (operands : List String) : Result String :=
  match engine.operator? op operands with
  | some sql => .ok sql
  | none =>
    match op.shape, operands with
    | .binary, [a] => .ok s!"({op.token}{a})"
    | .binary, [a, b] => .ok s!"({a} {op.token} {b})"
    | .unary, [a] => .ok s!"({op.token} {a})"
    | .between, [a, low, high] => .ok s!"({a} {op.token} {low} AND {high})"
    | .logical, operands =>
      let joined := s!" {op.token} ".intercalate operands
      .ok s!"({joined})"
    | _, operands => .error (.argsLength op.name s!"cannot render {operands.length} operands")

/-- An operator with its qualifier, where it has one. -/
def comparison (engine : Engine) (op : Operator) (qualifier : Option Qualifier)
    (operands : List String) : Result String :=
  match qualifier with
  | none => engine.operation op operands
  | some qualifier =>
    match operands with
    | [a, b] => .ok (engine.qualified op qualifier a b)
    | _ => .error (.argsLength op.name "a qualified comparison takes 2 operands")

/-- A function call. -/
def call (engine : Engine) (function : FunctionSpec) (args : List String) (distinct : Bool) :
    Result String := do
  match ← engine.function? function.name args distinct with
  | some sql => return sql
  | none =>
    if args.isEmpty && function.name == "count" then return "count(*)"
    else return s!"{function.name}({distinctWord distinct}{commaList args})"

end Engine

end AnalyticQuery
