import AnalyticQuery.CastType
import AnalyticQuery.ExpressionType
import AnalyticQuery.Json.Printer

/-!
# Query objects

An expression is written as an object whose field `type` names its kind. A field that is null counts
as absent.
-/

namespace AnalyticQuery

/-- The alias and the cast of an expression. -/
structure Tag where
  /-- The name under which the expression is selected. -/
  label : Option String := none
  /-- The type to which the expression is cast. -/
  cast : Option CastType := none
  deriving DecidableEq, Repr

/-- An object with a known kind. -/
structure QlObject where
  /-- All fields, `type` included. -/
  fields : Fields
  /-- The kind that `type` names. -/
  type : ExpressionType

namespace QlObject

/-- Takes a value as an object of a known kind. -/
def ofJson (value : Json) : Result QlObject :=
  match value with
  | .object fields =>
    match Fields.get? fields "type" with
    | some (.string name) => (ExpressionType.ofName name).map (⟨fields, ·⟩)
    | _ => .error (.invalidExpression "expression object requires a 'type'")
  | other => .error (.invalidExpression s!"expected an expression object, got {other.text}")

/-- Whether a value is an object of a kind. -/
def isType (value : Json) (type : ExpressionType) : Bool :=
  match value with
  | .object fields =>
    match Fields.get? fields "type" with
    | some (.string name) => ExpressionType.ofName? name == some type
    | _ => false
  | _ => false

/-- A failure of the object's rules. -/
def fault (obj : QlObject) (detail : String) : Error :=
  .invalidExpression s!"{obj.type.name}: {detail}"

/-- The failure of a missing field. -/
def missing (obj : QlObject) (key : String) : Error := obj.fault s!"missing '{key}'"

/-- A field that is present and not null. -/
def get? (obj : QlObject) (key : String) : Option Json :=
  (Fields.get? obj.fields key).filter (!·.isNull)

/-- Whether a field is present and not null. -/
def has (obj : QlObject) (key : String) : Bool := (obj.get? key).isSome

/-- A required field. -/
def required (obj : QlObject) (key : String) : Result Json :=
  match obj.get? key with
  | some value => .ok value
  | none => .error (obj.missing key)

/-- A field that is a text, if it is present; the text is not empty. -/
def string? (obj : QlObject) (key : String) : Result (Option String) :=
  match obj.get? key with
  | none => .ok none
  | some (.string s) =>
    if s.isEmpty then .error (obj.fault s!"'{key}' cannot be empty") else .ok (some s)
  | some other => .error (obj.fault s!"'{key}' must be a string, got {other.text}")

/-- A required field that is a text; the text is not empty. -/
def string (obj : QlObject) (key : String) : Result String := do
  match ← obj.string? key with
  | some s => return s
  | none => throw (obj.missing key)

/-- What the text of a field names, if the field is present. -/
def named? {α : Type} (obj : QlObject) (key : String) (read : String → Result α) :
    Result (Option α) := do
  match ← obj.string? key with
  | some name => return some (← read name)
  | none => return none

/-- A field that is an array, if it is present. -/
def array? (obj : QlObject) (key : String) : Result (Option (List Json)) :=
  match obj.get? key with
  | none => .ok none
  | some (.array items) => .ok (some items)
  | some other => .error (obj.fault s!"'{key}' must be an array, got {other.text}")

/-- A required field that is an array. -/
def array (obj : QlObject) (key : String) : Result (List Json) := do
  match ← obj.array? key with
  | some items => return items
  | none => throw (obj.missing key)

/-- A field that is a truth value, if it is present. -/
def bool? (obj : QlObject) (key : String) : Result (Option Bool) :=
  match obj.get? key with
  | none => .ok none
  | some (.bool b) => .ok (some b)
  | some other => .error (obj.fault s!"'{key}' must be a boolean, got {other.text}")

/-- Whether a key may stand in an object beside the allowed ones. -/
def isCommonKey (key : String) : Bool := key == "type" || key == "as" || key == "cast"

/-- Fails on the first key that is not allowed; `type`, `as` and `cast` always are. -/
def checkKeys (obj : QlObject) (allowed : List String) : Result Unit :=
  match obj.fields.find? fun field => !isCommonKey field.1 && !allowed.contains field.1 with
  | some (key, _) => .error (obj.fault s!"unexpected key '{key}'")
  | none => .ok ()

/-- The alias and the cast of an object. -/
def tag (obj : QlObject) : Result Tag := do
  let label ← obj.string? "as"
  let cast ← obj.named? "cast" CastType.ofName
  return { label, cast }

end QlObject

end AnalyticQuery
