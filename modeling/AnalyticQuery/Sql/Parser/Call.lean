import AnalyticQuery.Sql.Parser.Basic

/-!
# Calls

Function calls with their arguments, and the clauses that can follow them. Expressions and queries
inside are read by a grammar that is given, so that the nesting of constructs is bounded in one
place.
-/

namespace AnalyticQuery.Sql

/-- How the expressions and queries inside a construct are read. -/
structure Grammar where
  /-- Reads an expression whose operators bind tighter than a precedence. -/
  tighter : Nat → Parse Expr
  /-- Reads a query. -/
  query : Parse Query

/-- What stands where a wildcard is allowed. -/
inductive WildcardOrExpr where
  | expr (e : Expr)
  | wildcard
  | wildcardOf (name : List Ident)

namespace Grammar

open Parse

/-- Reads an expression. -/
def expr (g : Grammar) : Parse Expr := g.tighter 0

/-- Reads expressions; commas divide them. -/
def exprs (g : Grammar) : Parse (List Expr) := commaSeparated g.expr

/-- Whether a query is next. -/
def seesQuery : Parse Bool := do return ["SELECT", "WITH"].contains (← peekWord)

/-! ## Wildcards -/

/-- Reads the parts of a name that follow points. A star ends the name and makes it a wildcard. -/
def wildcardParts : Nat → Parse (List Ident × Bool)
  | 0 => return ([], false)
  | bound + 1 => do
    if ← acceptSymbol "." then
      if ← acceptSymbol "*" then return ([], true)
      let part ← ident
      let (parts, star) ← wildcardParts bound
      return (part :: parts, star)
    else return ([], false)

/-- Reads a wildcard or an expression. -/
def wildcardOrExpr (g : Grammar) : Parse WildcardOrExpr := do
  if ← acceptSymbol "*" then return .wildcard
  let start ← get
  match (start.head?.map (·.token)).bind ident? with
  | some first =>
    advance
    let (parts, star) ← wildcardParts ((← get).length)
    if star then return .wildcardOf (first :: parts)
    set start
    return .expr (← g.expr)
  | none => return .expr (← g.expr)

/-! ## Sort orders -/

/-- Reads a sort order by one value. -/
def sortKey (g : Grammar) : Parse (SortKey Expr) := do
  let value ← g.expr
  let ascending := (← acceptOneOf ["ASC", "DESC"]).map (· == "ASC")
  let nullsFirst ← do
    if ← acceptAll ["NULLS", "FIRST"] then pure (some true)
    else if ← acceptAll ["NULLS", "LAST"] then pure (some false)
    else pure none
  return ⟨value, ascending, nullsFirst⟩

/-- Reads sort orders; commas divide them. -/
def sortKeys (g : Grammar) : Parse (List (SortKey Expr)) := commaSeparated g.sortKey

/-! ## Windows -/

/-- Reads a bound of a window frame; `interval` reads one that starts with a string. -/
def frameBound (g : Grammar) (interval : Parse Expr) : Parse String := do
  if ← acceptAll ["CURRENT", "ROW"] then return "CURRENT ROW"
  let rows ← do
    if ← accept "UNBOUNDED" then pure "UNBOUNDED"
    else
      match ← peek? with
      | some (.string .plain _) => pure (← interval).text
      | _ => pure (← g.expr).text
  let side ← expectOneOf ["PRECEDING", "FOLLOWING"]
  return s!"{rows} {side}"

/-- Reads a window frame. -/
def frame (g : Grammar) (interval : Parse Expr) : Parse String := do
  let units ← expectOneOf ["ROWS", "RANGE", "GROUPS"]
  if ← accept "BETWEEN" then
    let low ← g.frameBound interval
    expect "AND"
    let high ← g.frameBound interval
    return s!"{units} BETWEEN {low} AND {high}"
  else
    let bound ← g.frameBound interval
    return s!"{units} {bound}"

/-- Reads a window after its opening parenthesis. -/
def window (g : Grammar) (interval : Parse Expr) : Parse String := do
  let base ← do
    match ← peek? with
    | some token => if token.isPlainWord then pure [(← ident).sql] else pure []
    | none => pure []
  let partition ← given (← acceptAll ["PARTITION", "BY"]) g.exprs
  let order ← given (← acceptAll ["ORDER", "BY"]) g.sortKeys
  let frame ← do
    if ← acceptSymbol ")" then pure []
    else
      let frame ← g.frame interval
      expectSymbol ")"
      pure [frame]
  let partition := partition.map fun es => "PARTITION BY " ++ commaList (exprTexts es)
  let order := order.map fun keys => "ORDER BY " ++ commaList (sortTexts keys)
  let parts := base ++ partition.toList ++ order.toList ++ frame
  let inside := " ".intercalate parts
  return s!"({inside})"

/-! ## Arguments -/

/-- Reads an argument. One whose second token is an arrow has a name. -/
def argument (g : Grammar) : Parse (CallArgument Expr) := do
  if ((← get)[1]?).map Located.token == some (.symbol "=>") then
    let label ← ident
    expectSymbol "=>"
    let text := match ← g.wildcardOrExpr with
      | .expr e => e.text
      | .wildcard => "*"
      | .wildcardOf name => nameText name ++ ".*"
    return .foreign s!"{label.sql} => {text}"
  else
    match ← g.wildcardOrExpr with
    | .expr e => return .expr e
    | .wildcard => return .wildcard
    | .wildcardOf name => return .foreign (nameText name ++ ".*")

/-- Reads whether a call considers every row or every value. -/
def multiplicity : Parse (Option Multiplicity) := do
  let start ← get
  if ← accept "ALL" then
    if ← accept "DISTINCT" then
      throw (.malformed "ALL and DISTINCT exclude each other" (start.head?.map (·.position)))
    return some .all
  else if ← accept "DISTINCT" then return some .distinct
  else return none

/-- Reads what happens when joined text is too long. -/
def overflow (g : Grammar) : Parse String := do
  if ← accept "ERROR" then return "ON OVERFLOW ERROR"
  expect "TRUNCATE"
  let filler ← do
    match ← peek? with
    | some (.string .plain _) | some (.string .escaped _) | some (.string .unicode _)
    | some (.string .national _) | some (.string .hex _) => pure (some (← g.expr).text)
    | _ => if ["WITH", "WITHOUT"].contains (← peekWord) then pure none else unexpected
  let word ← expectOneOf ["WITH", "WITHOUT"]
  expect "COUNT"
  return s!"ON OVERFLOW TRUNCATE{spaced filler} {word} COUNT"

/-- Reads arguments after the opening parenthesis. -/
def arguments (g : Grammar) : Parse (CallArguments Expr Query) := do
  if ← acceptSymbol ")" then return .list none [] []
  let multiplicity ← multiplicity
  let args ← commaSeparated g.argument
  let order ← given (← acceptAll ["ORDER", "BY"]) g.sortKeys
  let limit ← following "LIMIT" g.expr
  let overflow ← given (← acceptAll ["ON", "OVERFLOW"]) g.overflow
  expectSymbol ")"
  let order := order.map fun keys => "ORDER BY " ++ commaList (sortTexts keys)
  let limit := limit.map fun e => "LIMIT " ++ e.text
  return .list multiplicity args (order.toList ++ limit.toList ++ overflow.toList)

/-! ## Clauses after the arguments -/

/-- Reads which rows of a group a call considers. The words that open the clause are taken even
where the clause does not follow. -/
def callFilter (g : Grammar) : Parse (Option String) := do
  if !(← accept "FILTER") then return none
  if !(← acceptSymbol "(") then return none
  if !(← accept "WHERE") then return none
  let condition ← g.expr
  expectSymbol ")"
  return some s!"FILTER (WHERE {condition.text})"

/-- Reads a call of a function. -/
def call (g : Grammar) (interval : Parse Expr) (name : List Ident) : Parse Expr := do
  expectSymbol "("
  let args ← g.arguments
  let withinGroup ← given (← acceptAll ["WITHIN", "GROUP"]) do
    let keys ← parenthesized do
      expectAll ["ORDER", "BY"]
      g.sortKeys
    return s!"WITHIN GROUP (ORDER BY {commaList (sortTexts keys)})"
  let filter ← g.callFilter
  let nulls ← do
    match ← acceptOneOf ["RESPECT", "IGNORE"] with
    | some word =>
      expect "NULLS"
      pure (some s!"{word} NULLS")
    | none => pure none
  let window ← following "OVER" do
    if ← acceptSymbol "(" then g.window interval else return (← ident).sql
  return .call name args { withinGroup, filter, nulls, window }

end Grammar

end AnalyticQuery.Sql
