import AnalyticQuery.Sql.Parser.Pivot

/-!
# Relations

Tables, queries and joins that a select takes its rows from.
-/

namespace AnalyticQuery.Sql

namespace Grammar

open Parse

/-! ## Joins -/

/-- Reads which rows of a join are kept. -/
def joinConstraint (g : Grammar) (natural : Bool) : Parse (JoinConstraint Expr) := do
  if natural then return .natural
  else if ← accept "ON" then return .on (← g.expr)
  else if ← accept "USING" then return .using (← identsInParentheses)
  else return .none

/-- Reads the words of a join to one side after the first. -/
def sideJoin (word : String) (kind : JoinKind) : Parse JoinKind := do
  match ← acceptOneOf ["OUTER", "SEMI", "ANTI", "JOIN"] with
  | some "JOIN" => return kind
  | some "OUTER" =>
    expect "JOIN"
    return kind
  | some other =>
    expect "JOIN"
    return .foreign s!"{word} {other} JOIN" ""
  | none => throw (.malformed "a join to one side lacks its words" none)

/-- Reads the words of a join with a constraint, if one is next. -/
def constrainedJoin? (natural : Bool) : Parse (Option JoinKind) := do
  match ← peekWord with
  | "JOIN" =>
    advance
    return some .inner
  | "INNER" =>
    advance
    expect "JOIN"
    return some .inner
  | "LEFT" =>
    advance
    return some (← sideJoin "LEFT" .left)
  | "RIGHT" =>
    advance
    return some (← sideJoin "RIGHT" .right)
  | "FULL" =>
    advance
    let _ ← accept "OUTER"
    expect "JOIN"
    return some .full
  | word => if natural || word == "OUTER" then unexpected else return none

/-- Reads a join, if one is next; `relation` reads what is joined. -/
def join? (g : Grammar) (relation : Parse Relation) : Parse (Option (Join Expr Relation)) := do
  let global ← accept "GLOBAL"
  if ← accept "CROSS" then
    let kind ← match ← expectOneOf ["JOIN", "APPLY"] with
      | "JOIN" => pure JoinKind.cross
      | _ => pure (JoinKind.foreign "CROSS APPLY" "")
    return some ⟨← relation, kind, .none, global⟩
  else if ← accept "OUTER" then
    expect "APPLY"
    return some ⟨← relation, .foreign "OUTER APPLY" "", .none, global⟩
  else if ← accept "ASOF" then
    expect "JOIN"
    let relation ← relation
    expect "MATCH_CONDITION"
    let condition ← parenthesized g.expr
    let kind := JoinKind.foreign "ASOF JOIN" s!" MATCH_CONDITION ({condition.text})"
    return some ⟨relation, kind, ← g.joinConstraint false, global⟩
  else
    let natural ← accept "NATURAL"
    match ← constrainedJoin? natural with
    | some kind =>
      let relation ← relation
      return some ⟨relation, kind, ← g.joinConstraint natural, global⟩
    | none => return none

/-- Reads a relation with those joined to it. -/
def joinedBy (g : Grammar) (relation : Parse Relation) : Parse (JoinedRelation Expr Relation) := do
  let first ← relation
  return ⟨first, ← many (g.join? relation)⟩

/-! ## Relations -/

/-- Reads a query with its alias, after the opening parenthesis. -/
def derived (g : Grammar) (lateral : Bool) : Parse Relation := do
  let query ← g.query
  expectSymbol ")"
  return .derived lateral query (← tableAlias?)

/-- Reads the arguments of a table function after the opening parenthesis. -/
def tableArguments (g : Grammar) : Parse (List (CallArgument Expr)) := do
  if ← acceptSymbol ")" then return []
  let args ← commaSeparated g.argument
  expectSymbol ")"
  return args

/-- Reads a relation that depends on those before it, after its first word. -/
def lateral (g : Grammar) : Parse Relation := do
  if ← acceptSymbol "(" then g.derived true
  else
    let function ← name
    expectSymbol "("
    let args := commaList (argumentTexts (← g.tableArguments))
    let label := aliasSuffix (← tableAlias?)
    return .foreign s!"LATERAL {nameText function}({args}){label}"

/-- Reads the elements of arrays as a relation, after its first word. -/
def unnest (g : Grammar) : Parse Relation := do
  let arrays := commaList (exprTexts (← parenthesized g.exprs))
  let ordinality := if ← acceptAll ["WITH", "ORDINALITY"] then " WITH ORDINALITY" else ""
  let label := aliasSuffix (← tableAlias?)
  let positions ← do
    if ← accept "WITH" then
      if ← accept "OFFSET" then
        let name := (← alias? notColumnAliases).map Ident.sql
        pure (" WITH OFFSET" ++ clauseText "AS" name)
      else pure ""
    else pure ""
  return .foreign s!"UNNEST({arrays}){ordinality}{label}{positions}"

/-- Reads a table or a table function, which can be turned. -/
def table (g : Grammar) : Parse Relation := do
  let name ← name
  let args ← given (← acceptSymbol "(") g.tableArguments
  let ordinality ← acceptAll ["WITH", "ORDINALITY"]
  let label ← tableAlias?
  let start ← get
  let hints ← do
    if ← accept "WITH" then
      if ← seesSymbol "(" then parenthesized g.exprs
      else
        set start
        pure []
    else pure []
  g.turned (.table name args ordinality label hints)

/-- Reads a query or a join in parentheses, after the opening one; `relation` reads the relations of
the join. -/
def enclosedRelation (g : Grammar) (relation : Parse Relation) : Parse Relation := do
  match ← attempt (g.derived false) with
  | some query => g.turned query
  | none =>
    let inner ← g.joinedBy relation
    match inner.relation, inner.joins with
    | .joined .., [] | _, _ :: _ =>
      expectSymbol ")"
      return .joined inner (← tableAlias?)
    | _, [] => unexpected

/-- Reads a relation. The bound counts parentheses inside each other. -/
def relationUpTo (g : Grammar) : Nat → Parse Relation
  | 0 => unexpected
  | bound + 1 => do
    if ← accept "LATERAL" then g.lateral
    else if ← accept "TABLE" then
      let e ← parenthesized g.expr
      let label := aliasSuffix (← tableAlias?)
      return .foreign s!"TABLE({e.text}){label}"
    else if ← acceptSymbol "(" then g.enclosedRelation (g.relationUpTo bound)
    else if ← accept "UNNEST" then g.unnest
    else
      let start ← get
      if ← accept "JSON_TABLE" then
        if ← acceptSymbol "(" then return ← g.jsonTable
      set start
      g.table

/-- Reads a relation with those joined to it. -/
def joined (g : Grammar) : Parse (JoinedRelation Expr Relation) := do
  g.joinedBy (g.relationUpTo ((← get).length + 1))

end Grammar

end AnalyticQuery.Sql
