import AnalyticQuery.Error
import AnalyticQuery.Text.Words

/-!
# Cast types

The types that an expression can be cast to, their names in queries and the other spellings that are
read as them.
-/

namespace AnalyticQuery

/-- A type that an expression can be cast to. -/
inductive CastType where
  | boolean
  | integer
  | bigint
  | real
  | double
  | numeric
  | text
  | date
  | timestamp
  | timestamptz
  | time
  | interval
  | json
  | jsonb
  | geometry
  deriving DecidableEq, Repr

namespace CastType

/-- The name of a cast type in queries. -/
def name : CastType → String
  | boolean => "boolean"
  | integer => "integer"
  | bigint => "bigint"
  | real => "real"
  | double => "double"
  | numeric => "numeric"
  | text => "text"
  | date => "date"
  | timestamp => "timestamp"
  | timestamptz => "timestamptz"
  | time => "time"
  | interval => "interval"
  | json => "json"
  | jsonb => "jsonb"
  | geometry => "geometry"

instance : ToString CastType := ⟨name⟩

/-- Whether values of the type are points in time. -/
def isTemporal : CastType → Bool
  | date | timestamp | timestamptz | time => true
  | _ => false

/-- The spellings of cast types. -/
def spellings : List (String × CastType) :=
  [("boolean", boolean), ("bool", boolean), ("integer", integer), ("int", integer),
    ("int4", integer), ("bigint", bigint), ("int8", bigint), ("real", real), ("float", real),
    ("float4", real), ("double", double), ("double precision", double), ("float8", double),
    ("numeric", numeric), ("decimal", numeric), ("text", text), ("varchar", text),
    ("string", text), ("date", date), ("timestamp", timestamp),
    ("timestamp without time zone", timestamp), ("timestamptz", timestamptz),
    ("timestamp with time zone", timestamptz), ("time", time), ("interval", interval),
    ("json", json), ("jsonb", jsonb), ("geometry", geometry)]

/-- The cast type that a text spells, in any case and with any blanks between its words. -/
def ofName (spelling : String) : Result CastType :=
  match spellings.lookup (Text.singleSpaced spelling).toLower with
  | some type => .ok type
  | none => .error (.invalidCast spelling)

end CastType

end AnalyticQuery
