import AnalyticQuery.Sql.Parser.Expr

/-!
# Turned relations

Relations whose columns come from values: rows turned into columns and back, and tables that are
read out of JSON documents. They are kept as text.
-/

namespace AnalyticQuery.Sql

namespace Grammar

open Parse

/-- The text of what a parse reads, with a name that `AS` can give it. -/
def withLabel (p : Parse Expr) : Parse String := do
  let e ← p
  let label ← following "AS" ident
  return e.text ++ clauseText "AS" (label.map Ident.sql)

/-! ## Rows and columns -/

/-- Reads a call of an aggregate. Where no word stands, the token after that place is the one in the
way. -/
def aggregate (g : Grammar) : Parse Expr := do
  match ← peek? with
  | some (.word text _) =>
    advance
    g.call (interval g.primary) [⟨text, none⟩]
  | _ =>
    advance
    unexpected

/-- Reads the values that become columns. -/
def pivotValues (g : Grammar) : Parse String := do
  if ← accept "ANY" then
    let order ← given (← acceptAll ["ORDER", "BY"]) g.sortKeys
    return "ANY" ++ clauseText "ORDER BY" (order.map fun keys => commaList (sortTexts keys))
  else if ← seesQuery then return (← g.query).text
  else return commaList (← commaSeparated (withLabel g.expr))

/-- Reads how rows of a relation become columns, after the first word. -/
def pivot (g : Grammar) (relation : Relation) : Parse Relation := do
  let inside ← parenthesized do
    let aggregates ← commaSeparated (withLabel g.aggregate)
    expect "FOR"
    let column ← name
    expect "IN"
    let values ← parenthesized g.pivotValues
    let filler ← given (← acceptAll ["DEFAULT", "ON", "NULL"]) (parenthesized g.expr)
    let filler := clauseText "DEFAULT ON NULL" (filler.map fun e => s!"({e.text})")
    return s!"{commaList aggregates} FOR {nameText column} IN ({values}){filler}"
  let label := aliasSuffix (← tableAlias?)
  return .foreign s!"{relation.text} PIVOT({inside}){label}"

/-- Reads how columns of a relation become rows, after the first word. -/
def unpivot (relation : Relation) : Parse Relation := do
  let inside ← parenthesized do
    let value ← ident
    expect "FOR"
    let name ← ident
    expect "IN"
    let columns ← identsInParentheses
    return s!"{value.sql} FOR {name.sql} IN ({identList columns})"
  let label := aliasSuffix (← tableAlias?)
  return .foreign s!"{relation.text} UNPIVOT({inside}){label}"

/-- Reads how a relation is turned, as often as that follows it. The bound counts the turns. -/
def turnedUpTo (g : Grammar) : Nat → Relation → Parse Relation
  | 0, relation => return relation
  | bound + 1, relation => do
    match ← acceptOneOf ["PIVOT", "UNPIVOT"] with
    | some "PIVOT" => g.turnedUpTo bound (← g.pivot relation)
    | some _ => g.turnedUpTo bound (← unpivot relation)
    | none => return relation

/-- Reads how a relation is turned, as often as that follows it. -/
def turned (g : Grammar) (relation : Relation) : Parse Relation := do
  g.turnedUpTo ((← get).length) relation

/-! ## JSON tables -/

/-- Reads what a column holds where the document has no value, if that is next; `true` if a value is
missing, `false` if it does not fit. -/
def jsonFallback? : Parse (Option (Bool × String)) := do
  let text ← do
    match ← acceptOneOf ["NULL", "ERROR", "DEFAULT"] with
    | some "DEFAULT" => pure (some ("DEFAULT " ++ (← literal).text))
    | word => pure word
  match text with
  | none => return none
  | some text =>
    expect "ON"
    let missing := (← expectOneOf ["EMPTY", "ERROR"]) == "EMPTY"
    return some (missing, text)

/-- Reads a column of a JSON table. The bound counts columns inside each other. -/
def jsonColumnUpTo : Nat → Parse String
  | 0 => unexpected
  | bound + 1 => do
    if ← accept "NESTED" then
      let _ ← accept "PATH"
      let path ← literal
      expect "COLUMNS"
      let columns ← parenthesized (commaSeparated (jsonColumnUpTo bound))
      return s!"NESTED PATH {path.text} COLUMNS ({commaList columns})"
    let name ← ident
    if ← accept "FOR" then
      expect "ORDINALITY"
      return s!"{name.sql} FOR ORDINALITY"
    let type ← typeName
    let test := if ← accept "EXISTS" then " EXISTS" else ""
    expect "PATH"
    let path ← literal
    let fallbacks ← many jsonFallback?
    let last (missing : Bool) : Option String := fallbacks.reverse.lookup missing
    let onEmpty := ((last true).map fun text => s!" {text} ON EMPTY").getD ""
    let onError := ((last false).map fun text => s!" {text} ON ERROR").getD ""
    return s!"{name.sql} {type.text}{test} PATH {path.text}{onEmpty}{onError}"

/-- Reads a table out of a JSON document, after the opening parenthesis. -/
def jsonTable (g : Grammar) : Parse Relation := do
  let document ← g.expr
  expectSymbol ","
  let path ← literal
  expect "COLUMNS"
  let bound := (← get).length
  let columns ← parenthesized (commaSeparated (jsonColumnUpTo bound))
  expectSymbol ")"
  let label := aliasSuffix (← tableAlias?)
  return .foreign s!"JSON_TABLE({document.text}, {path.text} COLUMNS({commaList columns})){label}"

end Grammar

end AnalyticQuery.Sql
