import AnalyticQuery.Json.Basic

/-!
# Options

What a caller chooses when a query is read, written back or rendered as SQL, and the data form of
these choices: unknown fields are ignored, missing ones take their defaults.
-/

namespace AnalyticQuery

/-- How the text of a query is read. -/
inductive QueryType where
  /-- A value of the query language. -/
  | ql
  /-- SQL text. -/
  | sql
  deriving DecidableEq, Repr

/-- The name of a query type. -/
def QueryType.name : QueryType → String
  | .ql => "ql"
  | .sql => "sql"

/-- Choices for reading a query. -/
structure ParseOptions where
  /-- How the query is read. -/
  queryType : QueryType := .ql
  /-- Whether short expressions are kept beside their expansions. -/
  keepShorts : Bool := false
  /-- The values bound to parameters. -/
  parameters : Option Fields := none
  /-- Whether a parameter without a value is a failure. -/
  paramsMustHaveValues : Bool := false

/-- Choices for writing a query back. -/
structure QlOptions where
  /-- Whether kept short expressions are written in their short form. -/
  keepShorts : Bool := false
  /-- Whether parameters are written as references in place of their values. -/
  keepParamRefs : Bool := false
  deriving DecidableEq, Repr

/-- Choices for rendering SQL. -/
structure SqlOptions where
  /-- The value of the context function `whitelabel_id`. -/
  whitelabelId : Option Int := none
  /-- The value of the context function `customer_id`. -/
  customerId : Option Int := none
  /-- Whether every parameter is rendered as `NULL`. -/
  keepParamRefs : Bool := false
  deriving DecidableEq, Repr

namespace ParseOptions

/-- The value bound to a parameter. -/
def parameter? (options : ParseOptions) (name : String) : Option Json :=
  options.parameters.bind (Fields.get? · name)

/-- Equality of choices; bindings may stand in any order. -/
def same (a b : ParseOptions) : Bool :=
  a.queryType == b.queryType && a.keepShorts == b.keepShorts &&
    (match a.parameters, b.parameters with
      | none, none => true
      | some fs, some gs => Json.sameValue (.object fs) (.object gs)
      | _, _ => false) &&
    a.paramsMustHaveValues == b.paramsMustHaveValues

end ParseOptions

/-! ## Data form -/

namespace Fields

/-- A truth value under a key, false where the key is missing. -/
def flag? (fields : Fields) (key : String) : Option Bool :=
  match Fields.get? fields key with
  | none => some false
  | some (.bool b) => some b
  | some _ => none

/-- A signed 64-bit integer under a key; null and a missing key are none. -/
def int64Or? (fields : Fields) (key : String) : Option (Option Int) :=
  match Fields.get? fields key with
  | none | some .null => some none
  | some (.number n) => n.int64?.map some
  | some _ => none

/-- A text under a key; null and a missing key are none. -/
def stringOr? (fields : Fields) (key : String) : Option (Option String) :=
  match Fields.get? fields key with
  | none | some .null => some none
  | some (.string s) => some (some s)
  | some _ => none

end Fields

/-- An optional value as data. -/
def Json.ofOption {α : Type} (f : α → Json) : Option α → Json
  | none => .null
  | some a => f a

namespace ParseOptions

/-- The choices that a value writes, if its fields have the right types. -/
def ofJson? : Json → Option ParseOptions
  | .object fields => do
    let queryType ← match Fields.get? fields "type" with
      | none => some .ql
      | some (.string "ql") => some .ql
      | some (.string "sql") => some QueryType.sql
      | some _ => none
    let keepShorts ← Fields.flag? fields "keepShorts"
    let parameters ← match Fields.get? fields "parameters" with
      | none | some .null => some none
      | some (.object bindings) => some (some bindings)
      | some _ => none
    let paramsMustHaveValues ← Fields.flag? fields "paramsMustHaveValues"
    return { queryType, keepShorts, parameters, paramsMustHaveValues }
  | _ => none

/-- The choices as data, with all fields. -/
def toJson (options : ParseOptions) : Json :=
  .object [("type", .string options.queryType.name), ("keepShorts", .bool options.keepShorts),
    ("parameters", .ofOption .object options.parameters),
    ("paramsMustHaveValues", .bool options.paramsMustHaveValues)]

end ParseOptions

namespace QlOptions

/-- The choices that a value writes, if its fields have the right types. -/
def ofJson? : Json → Option QlOptions
  | .object fields => do
    return { keepShorts := ← Fields.flag? fields "keepShorts",
             keepParamRefs := ← Fields.flag? fields "keepParamRefs" }
  | _ => none

/-- The choices as data, with all fields. -/
def toJson (options : QlOptions) : Json :=
  .object [("keepShorts", .bool options.keepShorts),
    ("keepParamRefs", .bool options.keepParamRefs)]

end QlOptions

namespace SqlOptions

/-- The choices that a value writes, if its fields have the right types. -/
def ofJson? : Json → Option SqlOptions
  | .object fields => do
    return { whitelabelId := ← Fields.int64Or? fields "whitelabelID",
             customerId := ← Fields.int64Or? fields "customerID",
             keepParamRefs := ← Fields.flag? fields "keepParamRefs" }
  | _ => none

/-- The choices as data, with all fields. -/
def toJson (options : SqlOptions) : Json :=
  .object [("whitelabelID", .ofOption .int options.whitelabelId),
    ("customerID", .ofOption .int options.customerId),
    ("keepParamRefs", .bool options.keepParamRefs)]

end SqlOptions

end AnalyticQuery
