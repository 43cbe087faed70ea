import AnalyticQuery.Sql.Parser.Relation

/-!
# Selects

The clauses of a select in the order in which they are written.
-/

namespace AnalyticQuery.Sql

namespace Grammar

open Parse

/-- Reads which rows count once. -/
def distinctness (g : Grammar) : Parse Distinctness := do
  let start ← get
  let all ← accept "ALL"
  if !(← accept "DISTINCT") then return .none
  if all then
    throw (.malformed "ALL and DISTINCT exclude each other" (start.head?.map Located.position))
  if !(← accept "ON") then return .distinct
  let keys ← parenthesized do
    if ← seesSymbol ")" then return [] else g.exprs
  return .on (commaList (exprTexts keys))

/-- Reads how many rows are kept, after its first word. -/
def top (g : Grammar) : Parse String := do
  let count ← do
    if ← seesSymbol "(" then
      let e ← parenthesized g.expr
      pure s!"({e.text})"
    else
      let n ← natural
      pure s!"{n}"
  let percent := if ← accept "PERCENT" then " PERCENT" else ""
  let ties := if ← acceptAll ["WITH", "TIES"] then " WITH TIES" else ""
  return s!"TOP {count}{percent}{ties}"

/-- Whether an expression is the word that opens the next clause. -/
def isFromWord : Expr → Bool
  | .column [⟨text, none⟩] => capitalized text == "FROM"
  | _ => false

/-- Reads a column. -/
def item (g : Grammar) : Parse (Item Expr) := do
  match ← g.wildcardOrExpr with
  | .wildcard => return .wildcard
  | .wildcardOf name => return .wildcardOf name
  | .expr e =>
    if isFromWord e then unexpectedText e.text
    match ← alias? notColumnAliases with
    | some label => return .aliased e label
    | none => return .expr e

/-- Reads the table that rows are written to, after its first word. -/
def into : Parse String := do
  let temporary := if (← acceptOneOf ["TEMP", "TEMPORARY"]).isSome then " TEMPORARY" else ""
  let unlogged := if ← accept "UNLOGGED" then " UNLOGGED" else ""
  let table := if ← accept "TABLE" then " TABLE" else ""
  let name ← name
  return s!"INTO{temporary}{unlogged}{table} {nameText name}"

/-- Reads a lateral view, if one is next. -/
def lateralView? (g : Grammar) : Parse (Option String) := do
  given (← acceptAll ["LATERAL", "VIEW"]) do
    let outer := if ← accept "OUTER" then " OUTER" else ""
    let e ← g.expr
    let view ← name
    let columns ← commaSeparated (alias? ["WHERE", "GROUP", "CLUSTER", "HAVING", "LATERAL"])
    let columns := columns.filterMap (·.map Ident.sql)
    let columns := if columns.isEmpty then none else some (commaList columns)
    return s!" LATERAL VIEW{outer} {e.text} {nameText view}" ++ clauseText "AS" columns

/-! ## Groups -/

/-- Reads keys in parentheses, which can be empty. -/
def keyList (g : Grammar) : Parse (List Expr) := parenthesized do
  if ← seesSymbol ")" then return [] else g.exprs

/-- Reads the lists of keys of a cube or rollup; one key needs no parentheses. -/
def keyLists (g : Grammar) (word : String) : Parse Expr := do
  let lists ← parenthesized (commaSeparated do
    match ← if ← seesSymbol "(" then g.keyList else pure [← g.expr] with
    | [e] => return e.text
    | keys => return s!"({commaList (exprTexts keys)})")
  return .foreign s!"{word} ({commaList lists})"

/-- Reads a key that rows are grouped by. -/
def groupKey (g : Grammar) : Parse Expr := do
  if ← acceptAll ["GROUPING", "SETS"] then
    let lists ← parenthesized (commaSeparated do
      let keys ← g.keyList
      return s!"({commaList (exprTexts keys)})")
    return .foreign s!"GROUPING SETS ({commaList lists})"
  else if ← accept "CUBE" then g.keyLists "CUBE"
  else if ← accept "ROLLUP" then g.keyLists "ROLLUP"
  else
    let start ← get
    if ← acceptSymbol "(" then
      if ← acceptSymbol ")" then return .row []
    set start
    g.expr

/-- Reads what rows are grouped by. -/
def groupBy (g : Grammar) : Parse (GroupBy Expr) := do
  if ← acceptAll ["GROUP", "BY"] then
    if ← accept "ALL" then return .all
    else return .keys (← commaSeparated g.groupKey)
  else return .keys []

/-- Reads a clause that places rows, if it is next. -/
def placement? (g : Grammar) (word : String) : Parse (Option String) := do
  let keys ← given (← acceptAll [word, "BY"]) g.exprs
  return keys.map fun es => s!"{word} BY {commaList (exprTexts es)}"

/-- Reads windows with names, after the first word. -/
def namedWindows (g : Grammar) : Parse String := do
  let windows ← commaSeparated do
    let name ← ident
    expect "AS"
    expectSymbol "("
    let window ← g.window (interval g.primary)
    return s!"{name.sql} AS {window}"
  return commaList windows

/-! ## Clauses -/

/-- Reads a select after its first word. -/
def select (g : Grammar) : Parse Body := do
  let condition : Parse String := do return (← g.expr).text
  let distinctness ← g.distinctness
  let top ← following "TOP" g.top
  let items ← commaSeparated g.item
  let into ← following "INTO" into
  let source ← following "FROM" (commaSeparated g.joined)
  let lateralViews ← many g.lateralView?
  let filter ← following "WHERE" g.expr
  let groupBy ← g.groupBy
  let cluster ← g.placement? "CLUSTER"
  let distribute ← g.placement? "DISTRIBUTE"
  let sort ← g.placement? "SORT"
  let having ← following "HAVING" g.expr
  let early ← following "WINDOW" g.namedWindows
  let qualify ← following "QUALIFY" condition
  let late ← if early.isNone && qualify.isSome then following "WINDOW" g.namedWindows else pure none
  return .select {
    distinct := distinctness, top, items, into, source := source.getD [], lateralViews, filter
    groupBy
    placement := cluster.toList ++ distribute.toList ++ sort.toList
    having, windows := early.or late, qualify, windowsFirst := early.isSome || qualify.isNone }

end Grammar

end AnalyticQuery.Sql
