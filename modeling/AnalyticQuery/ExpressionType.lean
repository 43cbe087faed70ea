import AnalyticQuery.Error

/-!
# Kinds of expressions

The values of the field `type` of a query object.
-/

namespace AnalyticQuery

/-- The kind of an expression. -/
inductive ExpressionType where
  | select
  | column
  | function
  | operator
  | cast
  | case
  | array
  | list
  | sort
  | join
  | view
  | parameter
  | short
  | sql
  | primitive
  | geometry
  | and
  | or
  deriving DecidableEq, Repr

namespace ExpressionType

/-- The name of a kind. -/
def name : ExpressionType → String
  | select => "select"
  | column => "column"
  | function => "function"
  | operator => "operator"
  | cast => "cast"
  | case => "case"
  | array => "array"
  | list => "list"
  | sort => "sort"
  | join => "join"
  | view => "view"
  | parameter => "parameter"
  | short => "short"
  | sql => "sql"
  | primitive => "primitive"
  | geometry => "geometry"
  | and => "and"
  | or => "or"

instance : ToString ExpressionType := ⟨name⟩

/-- All kinds. -/
def all : List ExpressionType :=
  [select, column, function, operator, cast, case, array, list, sort, join, view, parameter, short,
    sql, primitive, geometry, and, or]

/-- The kind with a name, in any case. -/
def ofName? (name : String) : Option ExpressionType :=
  all.find? (·.name == name.toLower)

/-- The kind with a name, in any case; other names fail. -/
def ofName (name : String) : Result ExpressionType :=
  match ofName? name with
  | some type => .ok type
  | none => .error (.invalidExpression s!"unknown expression type '{name}'")

end ExpressionType

end AnalyticQuery
