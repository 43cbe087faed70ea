import AnalyticQuery.Function
import AnalyticQuery.GeometryType
import AnalyticQuery.Operator
import AnalyticQuery.Ql.Object
import AnalyticQuery.Short.Basic
import AnalyticQuery.Tree.Primitive

/-!
# Query trees

A node is one expression of a query with its names resolved. Joins, value lists, sort items and kept
short expressions carry no alias or cast of their own, and a view carries no cast, so these have no
place for one.
-/

namespace AnalyticQuery

/-- Where a select stands. -/
inductive SelectRole where
  /-- At the top of a query. -/
  | root
  /-- In a list of common tables. -/
  | cte
  /-- As a relation, which sees the relations before it if it is lateral. -/
  | range (lateral : Bool)
  /-- As a value or as the operand of `IN` or `EXISTS`. -/
  | subquery
  /-- As a side of a set operation. -/
  | operand
  deriving DecidableEq, Repr

/-- Whether a select in a role can have an alias. -/
def SelectRole.canAlias : SelectRole → Bool
  | .root | .operand => false
  | _ => true

/-- The name of a select in a role. -/
def SelectRole.description : SelectRole → String
  | .root => "root select"
  | .cte => "cte"
  | .range _ => "subquery in from"
  | .operand => "set operand"
  | .subquery => "select"

/-- An operation on the rows of two selects. -/
inductive SetOperator where
  | union
  | intersect
  | except
  deriving DecidableEq, Repr

namespace SetOperator

/-- All set operators. -/
def all : List SetOperator := [union, intersect, except]

/-- The name of a set operator. -/
def name : SetOperator → String
  | union => "union"
  | intersect => "intersect"
  | except => "except"

end SetOperator

/-- How many rows are returned at most. -/
inductive Limit where
  | count (rows : Nat)
  | all
  deriving DecidableEq, Repr

/-- How a relation is joined to those before it. -/
inductive JoinType where
  | inner
  | left
  | right
  | cross
  | lateral
  deriving DecidableEq, Repr

namespace JoinType

/-- The name of a join type. -/
def name : JoinType → String
  | inner => "inner"
  | left => "left"
  | right => "right"
  | cross => "cross"
  | lateral => "lateral"

/-- The join type with a name, in any case. -/
def ofName (spelling : String) : Result JoinType :=
  match [inner, left, right, cross, lateral].find? (·.name == spelling.toLower) with
  | some type => .ok type
  | none => .error (.invalidExpression s!"join: unknown join type '{spelling}'")

end JoinType

/-- The direction of a sort. -/
inductive SortDirection where
  | asc
  | desc
  deriving DecidableEq, Repr

namespace SortDirection

/-- The name of a direction. -/
def name : SortDirection → String
  | asc => "asc"
  | desc => "desc"

/-- The direction with a name, in any case. -/
def ofName (spelling : String) : Result SortDirection :=
  match [asc, desc].find? (·.name == spelling.toLower) with
  | some direction => .ok direction
  | none => .error (.invalidExpression s!"sort: unknown direction '{spelling}'")

end SortDirection

/-- Where nulls are sorted. -/
inductive NullsOrder where
  | first
  | last
  deriving DecidableEq, Repr

namespace NullsOrder

/-- The name of an order of nulls. -/
def name : NullsOrder → String
  | first => "first"
  | last => "last"

/-- The order of nulls with a name, in any case. -/
def ofName (spelling : String) : Result NullsOrder :=
  match [first, last].find? (·.name == spelling.toLower) with
  | some order => .ok order
  | none => .error (.invalidExpression s!"sort: unknown nulls order '{spelling}'")

end NullsOrder

/-- A column with the relation in which it was found. -/
structure Column where
  /-- The column's name, or `*` for all columns. -/
  name : String
  /-- The view as it was written. -/
  view : Option String
  /-- The name that qualifies the column in SQL. -/
  qualifier : Option String
  /-- The view that the column is read from, if it is one. -/
  origin : Option String
  deriving DecidableEq, Repr

/-- Whether a column stands for all columns. -/
def Column.isWildcard (c : Column) : Bool := c.name == "*"

/-- The clauses of a select. -/
structure Clauses (α : Type) where
  /-- The common tables. -/
  withs : List α := []
  /-- The first relation. -/
  source : Option α := none
  /-- The joined relations. -/
  joins : List α := []
  /-- Whether equal rows are returned once. -/
  distinct : Bool := false
  /-- The selected expressions. -/
  columns : List α := []
  /-- The condition on rows. -/
  filter : Option α := none
  /-- The expressions that form groups. -/
  groupBy : List α := []
  /-- The condition on groups. -/
  having : Option α := none
  /-- The expressions that order the rows. -/
  orderBy : List α := []
  /-- How many rows are returned at most. -/
  limit : Option Limit := none
  /-- How many rows are left out first. -/
  offset : Option Nat := none

/-- The expressions of a select's clauses, in order. -/
def Clauses.parts {α : Type} (c : Clauses α) : List α :=
  c.withs ++ c.source.toList ++ c.joins ++ c.columns ++ c.filter.toList ++ c.groupBy ++
    c.having.toList ++ c.orderBy

/-- One expression of a query. -/
inductive Node where
  | select (role : SelectRole) (clauses : Clauses Node) (tag : Tag)
  | compound (role : SelectRole) (operator : SetOperator) (all : Bool)
      (left right : Node) (tag : Tag)
  | join (type : JoinType) (relation : Node) (on : Option Node)
  | view (name : String) (isCte : Bool) (label : Option String)
  | column (column : Column) (tag : Tag)
  | parameter (name : String) (value : Option Node) (tag : Tag)
  | call (function : FunctionSpec) (args : List Node) (distinct : Bool) (tag : Tag)
  | geometry (type : GeometryType) (args : List Node) (tag : Tag)
  | operation (operator : Operator) (operands : List Node)
      (qualifier : Option Qualifier) (tag : Tag)
  | case (branches : List (Node × Node)) (otherwise : Option Node) (tag : Tag)
  | array (items : List Node) (tag : Tag)
  | list (items : List Node)
  | sort (value : Node) (direction : Option SortDirection) (nulls : Option NullsOrder)
  | constant (value : Primitive) (tag : Tag)
  /-- A short expression kept beside its expansion, whose alias and cast are its own. -/
  | short (source : Short) (inner : Node)

namespace Node

instance : Inhabited Node := ⟨.constant .null {}⟩

/-- The kind of an expression. -/
def type : Node → ExpressionType
  | select .. | compound .. => .select
  | join .. => .join
  | view .. => .view
  | column .. => .column
  | parameter .. => .parameter
  | call .. => .function
  | geometry .. => .geometry
  | operation op .. =>
    match op with
    | .and => .and
    | .or => .or
    | _ => .operator
  | case .. => .case
  | array .. => .array
  | list .. => .list
  | sort .. => .sort
  | constant .. => .primitive
  | short .. => .short

/-- The alias and the explicit cast of an expression. -/
def tag : Node → Tag
  | select _ _ tag | compound _ _ _ _ _ tag | column _ tag | parameter _ _ tag | call _ _ _ tag
  | geometry _ _ tag | operation _ _ _ tag | case _ _ tag | array _ tag | constant _ tag => tag
  | view _ _ label => { label }
  | join .. | list .. | sort .. => {}
  | short _ inner => inner.tag

/-- The alias of an expression. -/
def alias? (n : Node) : Option String := n.tag.label

/-- The explicit cast of an expression. -/
def cast? (n : Node) : Option CastType := n.tag.cast

/-- The cast with which an expression is rendered: its own, else the default of its function. -/
def effectiveCast? : Node → Option CastType
  | call function _ _ tag => tag.cast <|> function.defaultCast
  | geometry type _ tag => tag.cast <|> type.defaultCast
  | short _ inner => inner.effectiveCast?
  | other => other.cast?

/-- Whether an expression has an alias or a cast. -/
def hasTag (n : Node) : Bool := n.alias?.isSome || n.cast?.isSome

/-- Whether an expression can have an alias. -/
def canAlias : Node → Bool
  | select role .. | compound role .. => role.canAlias
  | list .. | sort .. | join .. => false
  | short _ inner => inner.canAlias
  | _ => true

/-- Whether an expression can have a cast. -/
def canCast : Node → Bool
  | select role .. | compound role .. => role == .subquery
  | view .. | list .. | sort .. | join .. => false
  | short _ inner => inner.canCast
  | _ => true

/-- The name of an expression in failures. -/
def description : Node → String
  | select role .. | compound role .. => role.description
  | other => other.type.name

/-- The expressions directly inside an expression, in order. -/
def children : Node → List Node
  | select _ clauses _ => clauses.parts
  | compound _ _ _ left right _ => [left, right]
  | join _ relation on => relation :: on.toList
  | view .. | column .. | constant .. => []
  | parameter _ value _ => value.toList
  | call _ args _ _ => args
  | geometry _ args _ => args
  | operation _ operands _ _ => operands
  | case branches otherwise _ => branches.flatMap (fun (c, r) => [c, r]) ++ otherwise.toList
  | array items _ => items
  | list items => items
  | sort value _ _ => [value]
  | short _ inner => [inner]

/-- The constant that an expression is. -/
def literal? : Node → Option Primitive
  | constant value _ => some value
  | _ => none

/-! ## Aliases and casts -/

/-- Sets the alias of an expression that can have one. -/
def setAlias (n : Node) (name : String) : Node :=
  let named (tag : Tag) : Tag := { tag with label := some name }
  match n with
  | select role clauses tag => select role clauses (named tag)
  | compound role op all left right tag => compound role op all left right (named tag)
  | view v isCte _ => view v isCte (some name)
  | column c tag => column c (named tag)
  | parameter p value tag => parameter p value (named tag)
  | call f args distinct tag => call f args distinct (named tag)
  | geometry type args tag => geometry type args (named tag)
  | operation op operands qualifier tag => operation op operands qualifier (named tag)
  | case branches otherwise tag => case branches otherwise (named tag)
  | array items tag => array items (named tag)
  | constant value tag => constant value (named tag)
  | other => other

/-- Sets the cast of an expression that can have one. -/
def setCast (n : Node) (type : CastType) : Node :=
  let typed (tag : Tag) : Tag := { tag with cast := some type }
  match n with
  | select role clauses tag => select role clauses (typed tag)
  | compound role op all left right tag => compound role op all left right (typed tag)
  | column c tag => column c (typed tag)
  | parameter p value tag => parameter p value (typed tag)
  | call f args distinct tag => call f args distinct (typed tag)
  | geometry type args tag => geometry type args (typed tag)
  | operation op operands qualifier tag => operation op operands qualifier (typed tag)
  | case branches otherwise tag => case branches otherwise (typed tag)
  | array items tag => array items (typed tag)
  | constant value tag => constant value (typed tag)
  | other => other

/-- Gives an expression an alias. The alias that it has already may be given again. -/
def foldAlias (n : Node) (name : String) : Result Node :=
  if name.isEmpty then .error (.illegalAliasing "alias cannot be empty")
  else if !n.canAlias then .error (.illegalAliasing s!"{n.description} cannot be aliased")
  else
    match n.alias? with
    | some existing =>
      if existing == name then .ok n
      else .error (.illegalAliasing s!"cannot alias as '{name}', already aliased as '{existing}'")
    | none => .ok (n.setAlias name)

/-- Gives an expression a cast. The cast that it has already may be given again. -/
def foldCast (n : Node) (type : CastType) : Result Node :=
  if !n.canCast then .error (.illegalCasting s!"{n.description} cannot be cast")
  else
    match n.cast? with
    | some existing =>
      if existing == type then .ok n
      else .error (.illegalCasting s!"cannot cast to {type.name}, already cast to {existing.name}")
    | none => .ok (n.setCast type)

/-- Gives an alias and a cast to an expression that is no kept short expression. -/
def foldPlain (n : Node) (label : Option String) (cast : Option CastType) : Result Node := do
  let n ← match label with
    | some name => n.foldAlias name
    | none => pure n
  match cast with
  | some type => n.foldCast type
  | none => pure n

/-- The named arguments of a short expression with an alias and a cast. -/
def tagShort (s : Short) (label : Option String) (cast : Option CastType) : Short :=
  let s := match label with
    | some name => s.set "as" (.string name)
    | none => s
  match cast with
  | some type => s.set "cast" (.string type.name)
  | none => s

/-- Gives an expression an alias and a cast, where they are given. A kept short expression passes
both to its expansion and keeps them among its named arguments. -/
def fold (n : Node) (label : Option String) (cast : Option CastType) : Result Node :=
  match n with
  | short source inner => do
    let inner ← inner.fold label cast
    return short (tagShort source label cast) inner
  | other => other.foldPlain label cast

/-! ## All expressions -/

mutual

/-- An expression and all those inside it, each before those inside it. -/
def preorder : Node → List Node
  | select role c tag =>
    select role c tag ::
      (match c with
        | ⟨withs, source, joins, _, columns, filter, groupBy, having, orderBy, _, _⟩ =>
          preorderAll withs ++ preorderOption source ++ preorderAll joins ++ preorderAll columns ++
            preorderOption filter ++ preorderAll groupBy ++ preorderOption having ++
            preorderAll orderBy)
  | compound role op all left right tag =>
    compound role op all left right tag :: (preorder left ++ preorder right)
  | join type relation on => join type relation on :: (preorder relation ++ preorderOption on)
  | view name isCte label => [view name isCte label]
  | column c tag => [column c tag]
  | parameter name value tag => parameter name value tag :: preorderOption value
  | call f args distinct tag => call f args distinct tag :: preorderAll args
  | geometry type args tag => geometry type args tag :: preorderAll args
  | operation op operands qualifier tag =>
    operation op operands qualifier tag :: preorderAll operands
  | case branches otherwise tag =>
    case branches otherwise tag :: (preorderBranches branches ++ preorderOption otherwise)
  | array items tag => array items tag :: preorderAll items
  | list items => list items :: preorderAll items
  | sort value direction nulls => sort value direction nulls :: preorder value
  | constant value tag => [constant value tag]
  | short source inner => short source inner :: preorder inner

/-- The expressions of a list and all those inside them. -/
def preorderAll : List Node → List Node
  | [] => []
  | n :: ns => preorder n ++ preorderAll ns

/-- An expression that may be there and all those inside it. -/
def preorderOption : Option Node → List Node
  | none => []
  | some n => preorder n

/-- The expressions of the branches of a case and all those inside them. -/
def preorderBranches : List (Node × Node) → List Node
  | [] => []
  | (c, r) :: rest => preorder c ++ preorder r ++ preorderBranches rest

end

/-! ## Equality -/

mutual

/-- Equality of expressions; constants and short expressions are compared by value. -/
def same : Node → Node → Bool
  | select r₁ c₁ t₁, select r₂ c₂ t₂ =>
    r₁ == r₂ && t₁ == t₂ &&
      (match c₁, c₂ with
        | ⟨withs₁, source₁, joins₁, distinct₁, columns₁, filter₁, groupBy₁, having₁, orderBy₁,
            limit₁, offset₁⟩, c₂ =>
          sameAll withs₁ c₂.withs && sameOption source₁ c₂.source && sameAll joins₁ c₂.joins &&
            distinct₁ == c₂.distinct && sameAll columns₁ c₂.columns &&
            sameOption filter₁ c₂.filter && sameAll groupBy₁ c₂.groupBy &&
            sameOption having₁ c₂.having && sameAll orderBy₁ c₂.orderBy &&
            limit₁ == c₂.limit && offset₁ == c₂.offset)
  | compound r₁ op₁ all₁ a₁ b₁ t₁, compound r₂ op₂ all₂ a₂ b₂ t₂ =>
    r₁ == r₂ && op₁ == op₂ && all₁ == all₂ && same a₁ a₂ && same b₁ b₂ && t₁ == t₂
  | join k₁ n₁ on₁, join k₂ n₂ on₂ => k₁ == k₂ && same n₁ n₂ && sameOption on₁ on₂
  | view n₁ c₁ a₁, view n₂ c₂ a₂ => n₁ == n₂ && c₁ == c₂ && a₁ == a₂
  | column c₁ t₁, column c₂ t₂ => c₁ == c₂ && t₁ == t₂
  | parameter n₁ v₁ t₁, parameter n₂ v₂ t₂ => n₁ == n₂ && sameOption v₁ v₂ && t₁ == t₂
  | call f₁ as₁ d₁ t₁, call f₂ as₂ d₂ t₂ => f₁ == f₂ && sameAll as₁ as₂ && d₁ == d₂ && t₁ == t₂
  | geometry k₁ as₁ t₁, geometry k₂ as₂ t₂ => k₁ == k₂ && sameAll as₁ as₂ && t₁ == t₂
  | operation o₁ as₁ q₁ t₁, operation o₂ as₂ q₂ t₂ =>
    o₁ == o₂ && sameAll as₁ as₂ && q₁ == q₂ && t₁ == t₂
  | case bs₁ d₁ t₁, case bs₂ d₂ t₂ => sameBranches bs₁ bs₂ && sameOption d₁ d₂ && t₁ == t₂
  | array xs₁ t₁, array xs₂ t₂ => sameAll xs₁ xs₂ && t₁ == t₂
  | list xs₁, list xs₂ => sameAll xs₁ xs₂
  | sort v₁ d₁ n₁, sort v₂ d₂ n₂ => same v₁ v₂ && d₁ == d₂ && n₁ == n₂
  | constant p₁ t₁, constant p₂ t₂ => p₁.same p₂ && t₁ == t₂
  | short s₁ n₁, short s₂ n₂ => s₁ == s₂ && same n₁ n₂
  | _, _ => false

/-- Equality of two lists of expressions, one by one. -/
def sameAll : List Node → List Node → Bool
  | [], [] => true
  | x :: xs, y :: ys => same x y && sameAll xs ys
  | _, _ => false

/-- Equality of two expressions that may be there. -/
def sameOption : Option Node → Option Node → Bool
  | none, none => true
  | some x, some y => same x y
  | _, _ => false

/-- Equality of the branches of two cases, one by one. -/
def sameBranches : List (Node × Node) → List (Node × Node) → Bool
  | [], [] => true
  | (a, b) :: xs, (c, d) :: ys => same a c && same b d && sameBranches xs ys
  | _, _ => false

end

instance : BEq Node := ⟨same⟩

end Node

end AnalyticQuery
