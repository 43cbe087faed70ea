import AnalyticQuery.Sql.Parser.Select

/-!
# Changes of tables

Insertions, updates and deletions of rows. They are kept as text.
-/

namespace AnalyticQuery.Sql

namespace Grammar

open Parse

/-- Reads the columns that a change of a table gives back. -/
def returning (g : Grammar) : Parse String := do
  let items ← following "RETURNING" (commaSeparated g.item)
  return clauseText "RETURNING" (items.map fun items => commaList (itemTexts items))

/-- Reads the new value of a column. -/
def assignment (g : Grammar) : Parse String := do
  let target ← do
    if ← seesSymbol "(" then
      let names ← parenthesized (commaSeparated name)
      pure s!"({commaList (names.map nameText)})"
    else pure (nameText (← name))
  expectSymbol "="
  let value ← g.expr
  return s!"{target} = {value.text}"

/-- Reads a condition after its word, if one is next. -/
def condition (g : Grammar) : Parse String := do
  return clauseText "WHERE" ((← following "WHERE" g.expr).map Expr.text)

/-! ## Insertions -/

/-- Reads what an insertion does with rows that exist already, after the first words. -/
def conflict (g : Grammar) : Parse String := do
  let target ← do
    if ← acceptAll ["ON", "CONSTRAINT"] then
      let constraint ← name
      pure s!" ON CONSTRAINT {nameText constraint}"
    else if ← seesSymbol "(" then
      let columns ← identsInParentheses
      pure s!"({identList columns})"
    else pure ""
  expect "DO"
  if ← accept "NOTHING" then return s!" ON CONFLICT{target} DO NOTHING"
  else
    expectAll ["UPDATE", "SET"]
    let assignments ← commaSeparated g.assignment
    let condition ← g.condition
    return s!" ON CONFLICT{target} DO UPDATE SET {commaList assignments}{condition}"

/-- Reads what an insertion does with rows that exist already, if that is next. -/
def onConflict (g : Grammar) : Parse String := do
  if !(← accept "ON") then return ""
  if ← accept "CONFLICT" then g.conflict
  else
    expectAll ["DUPLICATE", "KEY", "UPDATE"]
    let assignments ← commaSeparated g.assignment
    return s!" ON DUPLICATE KEY UPDATE {commaList assignments}"

/-- The formats of files that rows are written to. -/
def fileFormats : List String :=
  ["AVRO", "JSONFILE", "ORC", "PARQUET", "RCFILE", "SEQUENCEFILE", "TEXTFILE"]

/-- Reads an insertion into a directory, after the word for that. -/
def directoryInsertion (g : Grammar) (marks : String) : Parse String := do
  let path ← stringText
  let format ← given (← acceptAll ["STORED", "AS"]) (expectOneOf fileFormats)
  let query ← g.query
  let path := quotedText '\'' path
  let format := clauseText "STORED AS" format
  return s!"INSERT{marks} DIRECTORY {path}{format} {query.text}"

/-- Reads the columns of the rows that are inserted, and the partition they belong to. -/
def insertedColumns (g : Grammar) : Parse String := do
  let opening ← get
  if (← acceptSymbol "(") && (← peekWord) == "SELECT" then
    set opening
    return ""
  set opening
  let columns ← optionalIdents
  let partition ← following "PARTITION" (parenthesized g.exprs)
  let columns := if columns.isEmpty then "" else s!"({identList columns}) "
  let partition := partition.map fun es => s!"PARTITION ({commaList (exprTexts es)}) "
  return columns ++ partition.getD ""

/-- Reads an insertion, after its first word. -/
def insertion (g : Grammar) : Parse String := do
  let overwrite := if ← accept "OVERWRITE" then " OVERWRITE" else ""
  let into := if ← accept "INTO" then " INTO" else ""
  let nearby := if ← accept "LOCAL" then " LOCAL" else ""
  if ← accept "DIRECTORY" then return ← g.directoryInsertion (overwrite ++ nearby)
  let word := if ← accept "TABLE" then " TABLE" else ""
  let table ← name
  let label := clauseText "AS" ((← following "AS" ident).map Ident.sql)
  let rows ← do
    if ← acceptAll ["DEFAULT", "VALUES"] then pure "DEFAULT VALUES"
    else
      let columns ← g.insertedColumns
      pure (columns ++ (← g.query).text)
  let conflict ← g.onConflict
  let returning ← g.returning
  return s!"INSERT{overwrite}{into}{word} {nameText table}{label} {rows}{conflict}{returning}"

/-! ## Updates and deletions -/

/-- Reads an update, after its first word. -/
def update (g : Grammar) : Parse String := do
  let table ← g.joined
  expect "SET"
  let assignments ← commaSeparated g.assignment
  let source ← following "FROM" g.joined
  let condition ← g.condition
  let returning ← g.returning
  let source := clauseText "FROM" (source.map fun r => commaList (joinedTexts [r]))
  let table := commaList (joinedTexts [table])
  return s!"UPDATE {table} SET {commaList assignments}{source}{condition}{returning}"

/-- Reads a deletion, after its first word. -/
def deletion (g : Grammar) : Parse String := do
  let tables ← do
    if ← accept "FROM" then pure []
    else
      let tables ← commaSeparated name
      expect "FROM"
      pure tables
  let source ← commaSeparated g.joined
  let others ← following "USING" (commaSeparated g.joined)
  let condition ← g.condition
  let returning ← g.returning
  let order ← given (← acceptAll ["ORDER", "BY"]) g.sortKeys
  let limit ← following "LIMIT" (do if ← accept "ALL" then return none else return some (← g.expr))
  let tables := String.join (tables.map fun table => " " ++ nameText table)
  let others := clauseText "USING" (others.map fun rs => commaList (joinedTexts rs))
  let order := clauseText "ORDER BY" (order.map fun keys => commaList (sortTexts keys))
  let limit := clauseText "LIMIT" (limit.join.map Expr.text)
  let source := commaList (joinedTexts source)
  return s!"DELETE{tables} FROM {source}{others}{condition}{returning}{order}{limit}"

end Grammar

end AnalyticQuery.Sql
