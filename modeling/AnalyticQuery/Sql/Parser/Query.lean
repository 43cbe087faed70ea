import AnalyticQuery.Sql.Parser.Change

/-!
# Queries and statements

A query combines selects with set operations, and orders and cuts their rows. Expressions and
queries stand inside each other up to a fixed depth.
-/

namespace AnalyticQuery.Sql

namespace Grammar

open Parse

/-! ## Bodies -/

/-- Reads rows of values, after the first word. If one row is marked as such, all of them are. -/
def values (g : Grammar) : Parse String := do
  let rows ← commaSeparated do
    let marked ← accept "ROW"
    let items ← parenthesized g.exprs
    return (marked, s!"({commaList (exprTexts items)})")
  let word := if rows.any (·.1) then "ROW" else ""
  return "VALUES " ++ commaList (rows.map fun row => word ++ row.2)

/-- Reads a whole table as a body, after the first word. Up to three tokens are read, whatever they
are. -/
def wholeTable : Parse String := do
  let start ← get
  let rest := start.drop 3
  match start.map Located.token with
  | .word first _ :: .symbol "." :: .word second _ :: _ =>
    set rest
    return s!"TABLE {second}.{first}"
  | .word _ _ :: .symbol "." :: _ =>
    set (start.drop 2)
    unexpected
  | .word first _ :: _ =>
    set rest
    return s!"TABLE {first}"
  | _ => unexpected

/-- Reads one operand of set operations. -/
def term (g : Grammar) : Parse Body := do
  if ← accept "SELECT" then g.select
  else if ← seesSymbol "(" then return .nested (← parenthesized g.query)
  else if ← accept "VALUES" then return .values (← g.values)
  else if ← accept "TABLE" then return .foreign (← wholeTable)
  else unexpected

/-- Reads the quantifier of a set operation. -/
def setQuantifier : Parse SetQuantifier := do
  if ← acceptAll ["DISTINCT", "BY", "NAME"] then return .distinctByName
  else if ← acceptAll ["BY", "NAME"] then return .byName
  else if ← acceptAll ["ALL", "BY", "NAME"] then return .allByName
  else if ← accept "ALL" then return .all
  else if ← accept "DISTINCT" then return .distinct
  else return .none

/-- Reads the word of one of some set operations, if it is next. -/
def setOperator? (ops : List SetOperator) : Parse (Option SetOperator) := do
  let word ← peekWord
  match ops.find? fun op => capitalized op.name == word with
  | some op =>
    advance
    return some op
  | none => return none

/-- Reads some set operations after their first operand. They associate to the left. -/
def compoundsUpTo (ops : List SetOperator) (operand : Parse Body) : Nat → Body → Parse Body
  | 0, left => return left
  | bound + 1, left => do
    match ← setOperator? ops with
    | some op =>
      let quantifier ← setQuantifier
      compoundsUpTo ops operand bound (.compound op quantifier left (← operand))
    | none => return left

/-- Reads operands combined by some set operations. -/
def compounds (ops : List SetOperator) (operand : Parse Body) : Parse Body := do
  let first ← operand
  compoundsUpTo ops operand ((← get).length) first

/-- Reads a body. Intersections bind tighter than unions and differences. -/
def body (g : Grammar) : Parse Body :=
  compounds [.union, .except] (compounds [.intersect] g.term)

/-! ## Clauses after the body -/

/-- How many rows are kept and skipped. -/
structure RowRange where
  limit : Option Expr := none
  offset : Option Expr := none
  rows : Option String := none

/-- Reads how many rows are kept and skipped, in either order. A round reads each of both at most
once. -/
def rowRange (g : Grammar) : Nat → RowRange → Parse RowRange
  | 0, range => return range
  | rounds + 1, range => do
    let range ← do
      if range.limit.isSome then pure range
      else if ← accept "LIMIT" then
        if ← accept "ALL" then pure range
        else pure { range with limit := some (← g.expr) }
      else pure range
    let range ← do
      if range.offset.isSome then pure range
      else if ← accept "OFFSET" then
        let count ← g.expr
        pure { range with offset := some count, rows := ← acceptOneOf ["ROW", "ROWS"] }
      else pure range
    g.rowRange rounds range

/-- Reads how many rows are fetched, after its first word. -/
def fetch : Parse String := do
  let _ ← expectOneOf ["FIRST", "NEXT"]
  let count ← do
    if (← acceptOneOf ["ROW", "ROWS"]).isSome then pure ""
    else
      let count ← literal
      let percent := if ← accept "PERCENT" then " PERCENT" else ""
      let _ ← expectOneOf ["ROW", "ROWS"]
      pure s!" {count.text}{percent}"
  let ties ← do
    if ← accept "ONLY" then pure "ONLY"
    else if ← acceptAll ["WITH", "TIES"] then pure "WITH TIES"
    else unexpected
  return s!"FETCH FIRST{count} ROWS {ties}"

/-- Reads a name in quotes and parentheses. -/
def quotedName : Parse String := do
  let text ← parenthesized stringText
  return s!"('{text}')"

/-- Reads an optional name in quotes and parentheses. -/
def optionalQuotedName : Parse String := do
  if ← seesSymbol "(" then quotedName else return ""

/-- Reads one of some options of an output format, if it is next. -/
def formatOption? : List String → Parse (Option String)
  | [] => return none
  | "ROOT" :: rest => do
    if ← accept "ROOT" then
      let name ← quotedName
      return some ("ROOT" ++ name)
    else formatOption? rest
  | "BINARY BASE64" :: rest => do
    if ← accept "BINARY" then
      expect "BASE64"
      return some "BINARY BASE64"
    else formatOption? rest
  | option :: rest => do
    if ← accept option then return some option else formatOption? rest

/-- Reads options of an output format; a comma precedes each. -/
def formatOptionsUpTo (options : List String) : Nat → Parse (List String)
  | 0 => return []
  | bound + 1 => do
    if ← acceptSymbol "," then
      let option ← formatOption? options
      let rest ← formatOptionsUpTo options bound
      return option.toList ++ rest
    else return []

/-- Reads options of an output format. They are written in a fixed order, and the last of each kind
counts. -/
def formatOptions (options : List String) : Parse String := do
  let chosen ← formatOptionsUpTo options ((← get).length)
  let texts := options.filterMap fun option => chosen.reverse.find? (·.startsWith option)
  return String.join (texts.map (", " ++ ·))

/-- Reads the output format of a query, if one follows. -/
def outputFormat? : Parse (Option String) := do
  match ← acceptOneOf ["XML", "JSON", "BROWSE"] with
  | some "XML" =>
    let mode ← match ← acceptOneOf ["RAW", "AUTO", "EXPLICIT", "PATH"] with
      | some "RAW" => pure ("RAW" ++ (← optionalQuotedName))
      | some "PATH" => pure ("PATH" ++ (← optionalQuotedName))
      | some mode => pure mode
      | none => throw (.malformed "an output format without its mode" none)
    let options ← formatOptions ["BINARY BASE64", "TYPE", "ROOT", "ELEMENTS"]
    return some s!"FOR XML {mode}{options}"
  | some "JSON" =>
    let mode ← match ← acceptOneOf ["AUTO", "PATH"] with
      | some mode => pure mode
      | none => throw (.malformed "an output format without its mode" none)
    let options ← formatOptions ["ROOT", "INCLUDE_NULL_VALUES", "WITHOUT_ARRAY_WRAPPER"]
    return some s!"FOR JSON {mode}{options}"
  | some _ => return some "FOR BROWSE"
  | none => return none

/-- Reads a lock, after its first word. -/
def lock : Parse String := do
  let word ← expectOneOf ["UPDATE", "SHARE"]
  let tables := clauseText "OF" ((← following "OF" name).map nameText)
  let waiting ← do
    if ← accept "NOWAIT" then pure " NOWAIT"
    else if ← acceptAll ["SKIP", "LOCKED"] then pure " SKIP LOCKED"
    else pure ""
  return s!"FOR {word}{tables}{waiting}"

/-- Reads locks up to an output format, which ends them. -/
def locksUpTo : Nat → Parse (List String × Option String)
  | 0 => return ([], none)
  | bound + 1 => do
    if ← accept "FOR" then
      match ← outputFormat? with
      | some format => return ([], some format)
      | none =>
        let lock ← lock
        let (locks, format) ← locksUpTo bound
        return (lock :: locks, format)
    else return ([], none)

/-! ## Queries -/

/-- Reads a common table. -/
def cte (g : Grammar) : Parse (Cte Query) := do
  let name ← ident
  let columns ← if (← peekWord) == "AS" then pure [] else identsInParentheses
  expect "AS"
  let modifier ← do
    if ← accept "MATERIALIZED" then pure (some "MATERIALIZED")
    else if ← acceptAll ["NOT", "MATERIALIZED"] then pure (some "NOT MATERIALIZED")
    else pure none
  let query ← parenthesized g.query
  return ⟨⟨name, columns⟩, query, modifier, ← following "FROM" ident⟩

/-- Reads a query; what stands inside is read by the given grammar. -/
def queryOf (g : Grammar) : Parse Query := do
  let marked ← accept "WITH"
  let recursive ← if marked then accept "RECURSIVE" else pure false
  let ctes := (← given marked (commaSeparated g.cte)).getD []
  if ← accept "INSERT" then return .mk { recursive, ctes, body := .foreign (← g.insertion) }
  if ← accept "UPDATE" then return .mk { recursive, ctes, body := .foreign (← g.update) }
  let body ← g.body
  let orderBy ← given (← acceptAll ["ORDER", "BY"]) g.sortKeys
  let range ← g.rowRange 2 {}
  let fetch ← following "FETCH" fetch
  let (locks, forClause) ← locksUpTo ((← get).length)
  return .mk {
    recursive, ctes, body, orderBy := orderBy.getD [], limit := range.limit, offset := range.offset
    offsetRows := range.rows, fetch, locks, forClause }

end Grammar

/-- The grammar of constructs that stand inside each other up to a depth. -/
def grammar : Nat → Grammar
  | 0 => ⟨fun _ => throw .tooDeep, throw .tooDeep⟩
  | depth + 1 => ⟨(grammar depth).expression, (grammar depth).queryOf⟩

/-- How deep constructs can stand inside each other. -/
def depthLimit : Nat := 50

/-! ## Statements -/

namespace Parse

/-- The first words of statements that are no queries. -/
def statementWords : List String :=
  ["KILL", "DESC", "DESCRIBE", "EXPLAIN", "ANALYZE", "TRUNCATE", "ATTACH", "MSCK", "CREATE",
    "CACHE", "DROP", "DISCARD", "DECLARE", "FETCH", "UNCACHE", "ALTER", "CALL", "COPY", "CLOSE",
    "SET", "SHOW", "USE", "GRANT", "REVOKE", "START", "BEGIN", "END", "SAVEPOINT", "RELEASE",
    "COMMIT", "ROLLBACK", "ASSERT", "DEALLOCATE", "EXECUTE", "EXEC", "PREPARE", "MERGE", "LISTEN",
    "NOTIFY", "PRAGMA", "UNLOAD", "COMMENT"]

/-- The first words of statements that can end after them. -/
def completeWords : List String := ["BEGIN", "END", "COMMIT", "ROLLBACK", "SHOW"]

/-- The first words of statements that are recognized and refused. -/
def refusedWords : List String := ["FLUSH", "REPLACE"]

/-- Reads a statement. Queries and changes of rows are read in full; of others only the first word
is looked at. -/
def statement : Parse Statement := do
  let g := grammar (depthLimit - 1)
  let word ← peekWord
  if ["SELECT", "WITH", "VALUES"].contains word || (← seesSymbol "(") then return .query (← g.query)
  else if ["INSERT", "UPDATE", "DELETE"].contains word then
    advance
    let _ ← match word with
      | "INSERT" => g.insertion
      | "UPDATE" => g.update
      | _ => g.deletion
    return .foreign word
  else if refusedWords.contains word then
    advance
    unexpected
  else if statementWords.contains word then
    advance
    let ended := (← get).isEmpty || (← seesSymbol ";")
    if ended && !completeWords.contains word then unexpected
    modify (·.dropWhile (·.token != .symbol ";"))
    return .foreign word
  else unexpected

/-- Reads statements to the end; semicolons end each of them. The bound counts tokens. -/
def statementsUpTo : Nat → Bool → Parse (List Statement)
  | 0, _ => return []
  | bound + 1, complete => do
    if ← acceptSymbol ";" then statementsUpTo bound true
    else if (← get).isEmpty then return []
    else if complete then
      let first ← statement
      return first :: (← statementsUpTo bound false)
    else if (← peekWord) == "END" then return []
    else unexpected

/-- Reads statements to the end. -/
def statements : Parse (List Statement) := do statementsUpTo ((← get).length + 1) true

/-- Reads an expression. -/
def expression : Parse Expr := (grammar depthLimit).expr

end Parse

end AnalyticQuery.Sql
