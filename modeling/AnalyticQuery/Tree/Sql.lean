import AnalyticQuery.Engine.Render

/-!
# SQL of a tree

The SQL text of an expression for an engine.
-/

namespace AnalyticQuery

/-- What SQL is rendered for. -/
structure Target where
  /-- The engine. -/
  engine : Engine
  /-- The caller's choices. -/
  options : SqlOptions

namespace Target

/-- The SQL of an expression with its cast. -/
def withCast (t : Target) (type : Option CastType) (literal : Option Primitive) (sql : String) :
    Result String :=
  match type with
  | some type => t.engine.cast sql type literal
  | none => .ok sql

end Target

/-- SQL with the alias under which it is selected. -/
def aliasedSql (label : Option String) (sql : String) : String :=
  match label with
  | some name => s!"{sql} AS {quoteIdent name}"
  | none => sql

/-- The SQL of a column. -/
def Column.sql (c : Column) : String :=
  let name := if c.isWildcard then "*" else quoteIdent c.name
  match c.qualifier with
  | some qualifier => s!"{quoteIdent qualifier}.{name}"
  | none => name

/-- The SQL of a join from the SQL of its relation and condition. -/
def JoinType.sql (type : JoinType) (relation : String) (on : Option String) : String :=
  match type, on with
  | .cross, _ => s!"CROSS JOIN {relation}"
  | .lateral, _ => s!"CROSS JOIN LATERAL {relation}"
  | type, some on => s!"{type.name.toUpper} JOIN {relation} ON {on}"
  | type, none => s!"{type.name.toUpper} JOIN {relation}"

/-- Whether a select in a role stands in parentheses. -/
def SelectRole.inParentheses : SelectRole → Bool
  | .range _ | .subquery => true
  | _ => false

/-- SQL in parentheses, where its role asks for them. -/
def SelectRole.wrap (role : SelectRole) (sql : String) : String :=
  if role.inParentheses then s!"({sql})" else sql

/-- The SQL of a sort item from the SQL of its value. -/
def sortSql (value : String) (direction : Option SortDirection) (nulls : Option NullsOrder) :
    String :=
  let direction := match direction with
    | some direction => s!" {direction.name.toUpper}"
    | none => ""
  let nulls := match nulls with
    | some nulls => s!" NULLS {nulls.name.toUpper}"
    | none => ""
  value ++ direction ++ nulls

/-- A clause with its keyword, where it has parts. -/
def listClause (keyword : String) (parts : List String) : List String :=
  if parts.isEmpty then [] else [s!"{keyword} {commaList parts}"]

/-- A clause with its keyword, where it is there. -/
def optionClause (keyword : String) (part : Option String) : List String :=
  (part.map fun sql => s!"{keyword} {sql}").toList

/-- The SQL of a select from the SQL of its clauses. -/
def Clauses.sql (engine : Engine) (c : Clauses String) : String :=
  " ".intercalate
    (listClause "WITH" c.withs ++
      [s!"SELECT {distinctWord c.distinct}{commaList c.columns}"] ++
      optionClause "FROM" c.source ++ c.joins ++ optionClause "WHERE" c.filter ++
      listClause "GROUP BY" c.groupBy ++ optionClause "HAVING" c.having ++
      listClause "ORDER BY" c.orderBy ++ engine.limitOffset c.limit c.offset)

/-- The SQL of a set operation from the SQL of its sides. -/
def SetOperator.sql (op : SetOperator) (all : Bool) (left right : String) : String :=
  let all := if all then " ALL" else ""
  s!"({left}) {op.name.toUpper}{all} ({right})"

namespace Node

mutual

/-- The SQL of an expression with its cast, without its alias. -/
def sql (t : Target) : Node → Result String
  | select role ⟨withs, source, joins, distinct, columns, filter, groupBy, having, orderBy, limit,
      offset⟩ tag => do
    let withs ← sqlCtes t withs
    let columns ← sqlAliasedAll t columns
    let source ← sqlAliasedOption t source
    let joins ← sqlAll t joins
    let filter ← sqlOption t filter
    let groupBy ← sqlAll t groupBy
    let having ← sqlOption t having
    let orderBy ← sqlAll t orderBy
    let body := Clauses.sql t.engine
      ⟨withs, source, joins, distinct, columns, filter, groupBy, having, orderBy, limit, offset⟩
    t.withCast tag.cast none (role.wrap body)
  | compound role op all left right tag => do
    let left ← sql t left
    let right ← sql t right
    t.withCast tag.cast none (role.wrap (op.sql all left right))
  | join type relation on => do
    let relation' ← sql t relation
    let on ← match type with
      | .cross | .lateral => pure none
      | _ => sqlOption t on
    return type.sql (aliasedSql relation.alias? relation') on
  | view name _ _ => .ok (quoteIdent name)
  | column c tag => t.withCast tag.cast none c.sql
  | parameter _ value tag => do
    let bound ← if t.options.keepParamRefs then pure none else sqlOption t value
    t.withCast tag.cast none (bound.getD "NULL")
  | call f args distinct tag => do
    let body ←
      if f.category == .context then contextValue t.options f.name
      else do t.engine.call f (← sqlAll t args) distinct
    t.withCast (tag.cast <|> f.defaultCast) none body
  | geometry type args tag => do
    let body ← t.engine.geometry type (← sqlAll t args)
    t.withCast (tag.cast <|> type.defaultCast) none body
  | operation op operands qualifier tag => do
    let body ← t.engine.comparison op qualifier (← sqlAll t operands)
    t.withCast tag.cast none body
  | case branches otherwise tag => do
    let branches ← sqlBranches t branches
    let otherwise := (optionClause " ELSE" (← sqlOption t otherwise))
    t.withCast tag.cast none s!"CASE{String.join branches}{String.join otherwise} END"
  | array items tag => do
    t.withCast tag.cast none (t.engine.array (← sqlAll t items))
  | list items => do return s!"({commaList (← sqlAll t items)})"
  | sort value direction nulls => do return sortSql (← sql t value) direction nulls
  | constant value tag => t.withCast tag.cast (some value) value.sql
  | short _ inner => sql t inner

/-- The SQL of each expression of a list. -/
def sqlAll (t : Target) : List Node → Result (List String)
  | [] => .ok []
  | n :: ns => do
    let first ← sql t n
    let rest ← sqlAll t ns
    return first :: rest

/-- The SQL of an expression that may be there. -/
def sqlOption (t : Target) : Option Node → Result (Option String)
  | none => .ok none
  | some n => do return some (← sql t n)

/-- The SQL of each expression of a list with its alias. -/
def sqlAliasedAll (t : Target) : List Node → Result (List String)
  | [] => .ok []
  | n :: ns => do
    let first ← sql t n
    let rest ← sqlAliasedAll t ns
    return aliasedSql n.alias? first :: rest

/-- The SQL of an expression that may be there with its alias. -/
def sqlAliasedOption (t : Target) : Option Node → Result (Option String)
  | none => .ok none
  | some n => do return some (aliasedSql n.alias? (← sql t n))

/-- The SQL of common tables under their names. -/
def sqlCtes (t : Target) : List Node → Result (List String)
  | [] => .ok []
  | n :: ns => do
    match n.alias? with
    | none => throw (.invalidExpression "a cte must be aliased")
    | some name =>
      let first ← sql t n
      let rest ← sqlCtes t ns
      return s!"{quoteIdent name} AS ({first})" :: rest

/-- The SQL of the branches of a case. -/
def sqlBranches (t : Target) : List (Node × Node) → Result (List String)
  | [] => .ok []
  | (condition, result) :: rest => do
    let condition ← sql t condition
    let result ← sql t result
    let rest ← sqlBranches t rest
    return s!" WHEN {condition} THEN {result}" :: rest

end

/-- The SQL of an expression with its alias, as it stands at the top or in a list of columns. -/
def sqlAliased (t : Target) (n : Node) : Result String := do
  return aliasedSql n.alias? (← n.sql t)

end Node

end AnalyticQuery
