import AnalyticQuery.Arity
import AnalyticQuery.Text.Words

/-!
# Operators

The operators of the query language, how each lays out its operands, and the qualifiers of
comparisons with an array.
-/

namespace AnalyticQuery

/-- How an operator lays out its operands in SQL. -/
inductive OperatorShape where
  /-- Between two operands, or before one. -/
  | binary
  /-- Before its operand. -/
  | unary
  /-- Between a value and two bounds. -/
  | between
  /-- Between any number of operands. -/
  | logical
  deriving DecidableEq, Repr

/-- Whether a comparison with an array holds for some or for each element. -/
inductive Qualifier where
  | any
  | all
  deriving DecidableEq, Repr

namespace Qualifier

/-- The name of a qualifier. -/
def name : Qualifier → String
  | any => "any"
  | all => "all"

instance : ToString Qualifier := ⟨name⟩

/-- The qualifier with a name, in any case. -/
def ofName (spelling : String) : Result Qualifier :=
  match spelling.toLower with
  | "any" | "some" => .ok any
  | "all" => .ok all
  | _ => .error (.invalidOperator s!"unknown qualifier '{spelling}'")

end Qualifier

/-- An operator of the query language. -/
inductive Operator where
  | eq
  | ne
  | lt
  | le
  | gt
  | ge
  | add
  | sub
  | mul
  | div
  | mod
  | concat
  | like
  | notLike
  | ilike
  | notIlike
  | matches
  | matchesAnyCase
  | notMatches
  | overlaps
  | contains
  | containedIn
  | isIn
  | notIn
  | is
  | isNot
  | between
  | notBetween
  | and
  | or
  | not
  | exists
  | notExists
  deriving DecidableEq, Repr

namespace Operator

/-- The name of an operator in queries. -/
def name : Operator → String
  | eq => "="
  | ne => "!="
  | lt => "<"
  | le => "<="
  | gt => ">"
  | ge => ">="
  | add => "+"
  | sub => "-"
  | mul => "*"
  | div => "/"
  | mod => "%"
  | concat => "||"
  | like => "like"
  | notLike => "not like"
  | ilike => "ilike"
  | notIlike => "not ilike"
  | .matches => "~"
  | matchesAnyCase => "~*"
  | notMatches => "!~"
  | overlaps => "&&"
  | contains => "@>"
  | containedIn => "<@"
  | isIn => "in"
  | notIn => "not in"
  | .is => "is"
  | isNot => "is not"
  | between => "between"
  | notBetween => "not between"
  | and => "and"
  | or => "or"
  | not => "not"
  | .exists => "exists"
  | notExists => "not exists"

instance : ToString Operator := ⟨name⟩

/-- All operators. -/
def all : List Operator :=
  [eq, ne, lt, le, gt, ge, add, sub, mul, div, mod, concat, like, notLike, ilike, notIlike,
    .matches, matchesAnyCase, notMatches, overlaps, contains, containedIn, isIn, notIn, .is, isNot,
    between, notBetween, and, or, not, .exists, notExists]

/-- The operator's SQL token: its name in capitals. -/
def token (op : Operator) : String := op.name.toUpper

/-- How the operator lays out its operands. -/
def shape : Operator → OperatorShape
  | between | notBetween => .between
  | and | or => .logical
  | not | .exists | notExists => .unary
  | _ => .binary

/-- The number of operands. -/
def arity : Operator → Arity
  | sub => .between 1 2
  | between | notBetween => .exact 3
  | and | or => .atLeast 1
  | not | .exists | notExists => .exact 1
  | _ => .exact 2

/-- Whether the operator compares with an array under a qualifier. -/
def allowsQualifier : Operator → Bool
  | eq | ne | lt | le | gt | ge | like | ilike => true
  | _ => false

/-- Whether the operator joins any number of conditions. -/
def isLogical (op : Operator) : Bool := op.shape == .logical

/-- The operator with a name, in any case and with any blanks between its words; `<>` and `==` are
other spellings of `!=` and `=`. -/
def ofName (spelling : String) : Result Operator :=
  let written := (Text.singleSpaced spelling).toLower
  let name := if written == "<>" then "!=" else if written == "==" then "=" else written
  match all.find? (·.name == name) with
  | some op => .ok op
  | none => .error (.invalidOperator spelling)

end Operator

end AnalyticQuery
