import AnalyticQuery.Json.Basic

/-!
# Aliases and casts on query values

An expression can carry an alias and a cast: the fields `as` and `cast` of its query value.
-/

namespace AnalyticQuery.Json

/-- The fields of a query value that can carry an alias and a cast: a bare scalar or array is
written as the object that it abbreviates. -/
def taggable : Json → Fields
  | .object fields => fields
  | .array items => [("type", .string "array"), ("values", .array items)]
  | scalar => [("type", .string "primitive"), ("value", scalar)]

/-- Puts a cast onto fields; fields with another cast become the value of a cast around them. -/
def withCast (fields : Fields) (cast : String) : Fields :=
  match (Fields.get? fields "cast").bind string? with
  | some existing =>
    if existing == cast then Fields.insert fields "cast" (.string cast)
    else [("type", .string "cast"), ("value", .object fields), ("cast", .string cast)]
  | none => Fields.insert fields "cast" (.string cast)

/-- Puts an alias and a cast onto a query value. -/
def tagged (value : Json) (label cast : Option String) : Json :=
  if label.isNone && cast.isNone then value
  else
    let fields := match cast with
      | some cast => withCast value.taggable cast
      | none => value.taggable
    match label with
    | some label => .object (Fields.insert fields "as" (.string label))
    | none => .object fields

end AnalyticQuery.Json
