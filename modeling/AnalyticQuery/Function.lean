import AnalyticQuery.Arity
import AnalyticQuery.CastType

/-!
# Functions

What is known of each function that a query can call, and registries of functions by name.
-/

namespace AnalyticQuery

/-- What a function computes from. -/
inductive FunctionCategory where
  /-- The rows of a group. -/
  | aggregate
  /-- Its arguments. -/
  | scalar
  /-- Shapes. -/
  | geo
  /-- The options that SQL is rendered with. -/
  | context
  deriving DecidableEq, Repr

/-- What is known of a function. -/
structure FunctionSpec where
  /-- The name it is called by. -/
  name : String
  /-- The number of arguments. -/
  arity : Arity
  /-- What it computes from. -/
  category : FunctionCategory
  /-- The cast of a call that carries none. -/
  defaultCast : Option CastType := none
  deriving DecidableEq, Repr

/-- Whether a function computes from the rows of a group. -/
def FunctionSpec.isAggregate (spec : FunctionSpec) : Bool := spec.category == .aggregate

/-- Functions by name in small letters, the last registered first. -/
structure FunctionRegistry where
  /-- The registered functions under their keys; a key stands once. -/
  entries : List (String × FunctionSpec) := []

namespace FunctionRegistry

/-- Registers a function under its name, in place of one of the same name. -/
def register (registry : FunctionRegistry) (spec : FunctionSpec) : FunctionRegistry :=
  let key := spec.name.toLower
  ⟨(key, spec) :: registry.entries.filter (·.1 != key)⟩

/-- The function with a name, in any case. -/
def get? (registry : FunctionRegistry) (name : String) : Option FunctionSpec :=
  registry.entries.lookup name.toLower

/-- The function with a name, in any case; other names fail. -/
def lookup (registry : FunctionRegistry) (name : String) : Result FunctionSpec :=
  match registry.get? name with
  | some spec => .ok spec
  | none => .error (.invalidFunction name)

/-- The names of the registered functions, in order. -/
def names (registry : FunctionRegistry) : List String :=
  (registry.entries.map (·.1)).mergeSort (fun a b => decide (a ≤ b))

/-- The functions that queries can call. -/
def specs : List FunctionSpec :=
  [{ name := "count", arity := .between 0 1, category := .aggregate, defaultCast := some .integer },
    { name := "sum", arity := .exact 1, category := .aggregate, defaultCast := some .real },
    { name := "avg", arity := .exact 1, category := .aggregate, defaultCast := some .real },
    { name := "min", arity := .exact 1, category := .aggregate },
    { name := "max", arity := .exact 1, category := .aggregate },
    { name := "array_agg", arity := .exact 1, category := .aggregate },
    { name := "string_agg", arity := .exact 2, category := .aggregate },
    { name := "abs", arity := .exact 1, category := .scalar },
    { name := "round", arity := .between 1 2, category := .scalar },
    { name := "ceil", arity := .exact 1, category := .scalar },
    { name := "floor", arity := .exact 1, category := .scalar },
    { name := "coalesce", arity := .atLeast 1, category := .scalar },
    { name := "nullif", arity := .exact 2, category := .scalar },
    { name := "greatest", arity := .atLeast 1, category := .scalar },
    { name := "least", arity := .atLeast 1, category := .scalar },
    { name := "lower", arity := .exact 1, category := .scalar },
    { name := "upper", arity := .exact 1, category := .scalar },
    { name := "length", arity := .exact 1, category := .scalar },
    { name := "concat", arity := .atLeast 1, category := .scalar },
    { name := "substring", arity := .between 2 3, category := .scalar },
    { name := "date_trunc", arity := .exact 2, category := .scalar },
    { name := "date_part", arity := .exact 2, category := .scalar },
    { name := "now", arity := .exact 0, category := .scalar },
    { name := "json_extract", arity := .atLeast 2, category := .scalar },
    { name := "array_length", arity := .exact 1, category := .scalar },
    { name := "geo_intersects", arity := .exact 2, category := .geo },
    { name := "geo_within", arity := .exact 2, category := .geo },
    { name := "geo_distance", arity := .exact 2, category := .geo, defaultCast := some .real },
    { name := "geo_area", arity := .exact 1, category := .geo, defaultCast := some .real },
    { name := "whitelabel_id", arity := .exact 0, category := .context },
    { name := "customer_id", arity := .exact 0, category := .context }]

/-- The registry that queries are built with. -/
def standard : FunctionRegistry := specs.foldl register {}

end FunctionRegistry

end AnalyticQuery
