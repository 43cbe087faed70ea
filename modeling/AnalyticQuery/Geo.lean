import AnalyticQuery.Catalog
import AnalyticQuery.Query

/-!
# Intersections of places

An equation between two columns that hold ids of places of different types compares ids that are
never equal. It becomes an intersection of the places' shapes.
-/

namespace AnalyticQuery.Geo

/-- The relations of a select: their names and the views behind them. -/
abbrev Refs := List (String × String)

/-- A text under a key. -/
def stringField? (fields : Fields) (key : String) : Option String :=
  (Fields.get? fields key).bind Json.string?

/-- The view that a relation's value reads, under its name. -/
def relationRef? : Json → Option (String × String)
  | .string view => some (view, view)
  | .object fields =>
    if stringField? fields "type" == some "view" then do
      let view ← stringField? fields "view"
      return ((stringField? fields "as").getD view, view)
    else none
  | _ => none

/-- The values of the joined relations of a select. -/
def joinedRelations (fields : Fields) : List Json :=
  match Fields.get? fields "joins" with
  | some (.array joins) => joins.filterMap fun join =>
    match join with
    | .object fields => Fields.get? fields "view"
    | _ => none
  | _ => []

/-- The relations that a select with clauses declares. -/
def selectRefs? : Json → Option Refs
  | .object fields =>
    if stringField? fields "type" == some "select" && Fields.contains fields "columns" then
      let relations := (Fields.get? fields "from").toList ++ joinedRelations fields
      some ((relations.filterMap relationRef?).foldl
        (fun refs (name, view) => insertEntry refs name view) [])
    else none
  | _ => none

/-- The type of the places that a plain column holds. -/
def operandType? (catalog : Catalog) (refs : Refs) : Json → Option String
  | .object fields =>
    if stringField? fields "type" == some "column" && !Fields.contains fields "cast" then do
      let column ← stringField? fields "column"
      let view ← match stringField? fields "view" with
        | some name => refs.lookup name
        | none =>
          match refs with
          | [(_, view)] => some view
          | _ => none
      catalog.geoType? view column
    else none
  | _ => none

/-- The shape of the place that a column holds. -/
def columnShape (typeName : String) (column : Json) : Result Json := do
  let type ← GeometryType.ofName typeName
  if !type.isPlace then
    throw (.invalidGeometry s!"'{typeName}' cannot be used as a column geo type")
  let column := match column with
    | .object fields => Json.object (fields.filter (·.1 != "as"))
    | other => other
  return .object [("type", .string "geometry"), ("geometryType", .string type.name),
    ("args", .array [column])]

/-- The two sides of an equation and the types of their places, where the types differ. -/
def crossing? (catalog : Catalog) (refs : Refs) (fields : Fields) :
    Option ((Json × String) × (Json × String)) :=
  if stringField? fields "type" == some "operator" && stringField? fields "value" == some "=" &&
      !Fields.contains fields "qualifier" then
    match Fields.get? fields "operands" with
    | some (.array [left, right]) => do
      let leftType ← operandType? catalog refs left
      let rightType ← operandType? catalog refs right
      if leftType == rightType then none else some ((left, leftType), (right, rightType))
    | _ => none
  else none

/-- The intersection that stands for a value, if it is an equation between places of different
types. -/
def intersection (catalog : Catalog) (refs : Refs) : Json → Result (Option Json)
  | .object fields =>
    match crossing? catalog refs fields with
    | none => .ok none
    | some ((left, leftType), (right, rightType)) => do
      let left ← columnShape leftType left
      let right ← columnShape rightType right
      let tag := ["as", "cast"].filterMap fun key => (Fields.get? fields key).map (key, ·)
      return some (.object ([("type", .string "function"), ("value", .string "geo_intersects"),
        ("args", .array [left, right])] ++ tag))
  | _ => .ok none

/-- The relations in sight inside a value. -/
def refsInside (refs : Refs) (value : Json) : Refs := (selectRefs? value).getD refs

/-- The values directly inside a value. -/
def inside : Json → List Json
  | .array items => items
  | .object fields => fields.map (·.2)
  | _ => []

/-- Fails with the first failure among values and those inside them, the outer values first. -/
def check (catalog : Catalog) : Nat → List (Json × Refs) → Result Unit
  | 0, _ => .ok ()
  | depth + 1, values => do
    let next ← values.mapM fun (value, refs) => do
      let refs := refsInside refs value
      match ← intersection catalog refs value with
      | some _ => return []
      | none => return (inside value).map (·, refs)
    if next.flatten.isEmpty then return () else check catalog depth next.flatten

mutual

/-- A value with its equations turned into intersections, and their number. -/
def intersected (catalog : Catalog) (refs : Refs) (value : Json) : Json × Nat :=
  let refs := refsInside refs value
  match intersection catalog refs value with
  | .ok (some shapes) => (shapes, 1)
  | _ =>
    match value with
    | .array items =>
      let (items, count) := intersectedItems catalog refs items
      (.array items, count)
    | .object fields =>
      let (fields, count) := intersectedFields catalog refs fields
      (.object fields, count)
    | other => (other, 0)

/-- The values of a list with their equations turned into intersections, and their number. -/
def intersectedItems (catalog : Catalog) (refs : Refs) : List Json → List Json × Nat
  | [] => ([], 0)
  | item :: items =>
    let (item, m) := intersected catalog refs item
    let (items, n) := intersectedItems catalog refs items
    (item :: items, m + n)

/-- The values of fields with their equations turned into intersections, and their number. -/
def intersectedFields (catalog : Catalog) (refs : Refs) : List (String × Json) → Fields × Nat
  | [] => ([], 0)
  | (key, value) :: fields =>
    let (value, m) := intersected catalog refs value
    let (fields, n) := intersectedFields catalog refs fields
    ((key, value) :: fields, m + n)

end

/-- The query with intersections in place of equations between places of different types. A query
without such an equation stays as it is. -/
def insertIntersections (catalog : Catalog) (query : Query) : Result Query := do
  let value := query.toQl { keepParamRefs := true }
  check catalog value.depth [(value, [])]
  match intersected catalog [] value with
  | (_, 0) => return query
  | (value, _) => Query.read value { query.options with queryType := .ql }

end AnalyticQuery.Geo
