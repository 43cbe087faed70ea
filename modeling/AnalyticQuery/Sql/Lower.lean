import AnalyticQuery.Decimal.Reader
import AnalyticQuery.Ql.Tag
import AnalyticQuery.Short.Printer
import AnalyticQuery.Sql.Embedded
import AnalyticQuery.Sql.Printer
import AnalyticQuery.Temporal.Literal

/-!
# Query values of SQL constructs

SQL constructs as query values. A construct without a counterpart fails at the place of a fragment
of its text.
-/

namespace AnalyticQuery.Sql

/-! ## Places of fragments -/

/-- Where a fragment first occurs in a text. -/
def firstOccurrence? (fragment : List Char) : List Char → Option Nat
  | [] => if fragment.isEmpty then some 0 else none
  | c :: cs =>
    if fragment.isPrefixOf (c :: cs) then some 0 else (firstOccurrence? fragment cs).map (· + 1)

namespace Extracted

/-- Where a fragment first occurs in the source, if it is not empty. Letters are compared without
case. -/
def find? (x : Extracted) (fragment : String) : Option Nat :=
  if fragment.isEmpty then none
  else
    (firstOccurrence? (fragment.toList.map Char.toLower) (x.text.map Char.toLower)).map
      x.sourceOffset

/-- A failure for a construct without a counterpart. -/
def unsupported {α : Type} (x : Extracted) (detail fragment : String) : Result α :=
  .error (.unsupportedSql detail (x.find? fragment))

end Extracted

/-! ## Parts of query values -/

/-- An operation on values. -/
def operation (name : String) (operands : List Json) : Json :=
  .object [("type", .string "operator"), ("value", .string name), ("operands", .array operands)]

/-- A conjunction or disjunction. -/
def junction (name : String) (operands : List Json) : Json :=
  .object [("type", .string name), ("operands", .array operands)]

/-- An application of a function. -/
def application (name : String) (args : List Json) : Json :=
  .object [("type", .string "function"), ("value", .string name), ("args", .array args)]

/-- A list of values. -/
def listOf (values : List Json) : Json :=
  .object [("type", .string "list"), ("values", .array values)]

/-- A short expression. -/
def shortValue (short : Short) : Json :=
  .object [("type", .string "short"), ("value", .string short.text)]

/-- A column of a view, if one is named. -/
def columnValue (column : String) (view : Option String) : Json :=
  .object ([("type", .string "column"), ("column", .string column)]
    ++ (view.map fun view => ("view", .string view)).toList)

/-- A field, if it has a value. -/
def field? (key : String) (value : Option Json) : Fields :=
  (value.map fun value => (key, value)).toList

/-- A field with a list, if it is not empty. -/
def listField? (key : String) (values : List Json) : Fields :=
  if values.isEmpty then [] else [(key, .array values)]

/-- A word after `not`, if a test is negated. -/
def negatable (negated : Bool) (name : String) : String :=
  if negated then "not " ++ name else name

/-! ## Literals and operators -/

/-- The value of a number. -/
def numberValue (text : String) : Result Json :=
  match Number.ofText? text with
  | some n => .ok (.number n)
  | none =>
    match (Decimal.ofChars? text.toList).bind Decimal.nearest? with
    | some x => .ok (.number (.real x))
    | none => .error (.invalidExpression s!"invalid number literal {text}")

/-- The value of a literal. -/
def Literal.lower (x : Extracted) : Literal → Result Json
  | .number digits _ => numberValue digits
  | .string .plain text | .string .escaped text => .ok (.string text)
  | .bool value => .ok (.bool value)
  | .null => .ok .null
  | .placeholder text =>
    match x.short? text with
    | some short => .ok (shortValue short)
    | none => x.unsupported s!"unexpected placeholder {text}" text
  | other => x.unsupported s!"literal is not supported: {other.text}" other.text

/-- The operators that queries have under the same name. -/
def sharedOperators : List String :=
  ["+", "-", "*", "/", "%", "||", "=", "<", "<=", ">", ">=", "~", "~*", "!~", "&&", "@>", "<@"]

/-- The name of an operator in queries. -/
def operatorName (x : Extracted) (op : String) : Result String :=
  if op == "<>" then .ok "!="
  else if sharedOperators.contains op then .ok op
  else x.unsupported s!"operator {op} is not supported" op

/-- The value of an interval with the text of its amount. -/
def intervalValue (text : String) (unit : Option String) : Result Json := do
  let text := text ++ spaced unit
  match ← Temporal.lowerLiteral text .interval with
  | some value => return value
  | none => .error (.invalidExpression s!"invalid interval '{text}'")

/-- The value of a string literal with a type; none if the type is attached to the string. -/
def typedValue (type text : String) : Result Json := do
  let cast ← CastType.ofName type
  match ← Temporal.lowerLiteral text cast with
  | some value => return value
  | none => return Json.tagged (.string text) none (some cast.name)

/-- The value of a call. One of `geometry` whose first argument is a text names a geometry type. -/
def callValue (name : String) (args : List Json) (distinct : Bool) : Json :=
  match name, args with
  | "geometry", .string type :: rest =>
    .object [("type", .string "geometry"), ("geometryType", .string type), ("args", .array rest)]
  | _, _ =>
    .object ([("type", .string "function"), ("value", .string name), ("args", .array args)]
      ++ if distinct then [("distinct", .bool true)] else [])

/-- Fails for a clause that calls cannot have; `call` is the text of the whole call. -/
def CallClauses.check (x : Extracted) (clauses : CallClauses) (name call : String) : Result Unit :=
  if clauses.window.isSome then x.unsupported "window functions (OVER) are not supported" "over"
  else if clauses.filter.isSome then x.unsupported "FILTER clauses are not supported" "filter"
  else if clauses.withinGroup.isSome then
    x.unsupported "WITHIN GROUP is not supported" "within group"
  else if clauses.nulls.isSome then x.unsupported s!"function form is not supported: {call}" name
  else .ok ()

/-! ## Parts of selects -/

/-- The name of an alias, which cannot name columns. -/
def TableAlias.lower (x : Extracted) (label : TableAlias) : Result String :=
  if label.columns.isEmpty then .ok label.name.text
  else x.unsupported "column lists on aliases are not supported" label.text

/-- The name of an alias, if there is one. -/
def lowerAlias? (x : Extracted) : Option TableAlias → Result (Option String)
  | none => .ok none
  | some label => some <$> label.lower x

/-- The value of a table. A quoted placeholder stands for a short expression. -/
def tableValue (x : Extracted) (name : List Ident) (function : Bool) (label : Option TableAlias) :
    Result Json := do
  if function then x.unsupported "table functions are not supported" (nameText name)
  else
    match name with
    | [ident] =>
      let label ← lowerAlias? x label
      match if ident.quote == some '"' then x.short? ident.text else none with
      | some short => return Json.tagged (shortValue short) label none
      | none =>
        match label with
        | some label =>
          return .object [("type", .string "view"), ("view", .string ident.text),
            ("as", .string label)]
        | none => return .string ident.text
    | _ =>
      let text := nameText name
      x.unsupported s!"qualified relation names are not supported: {text}" text

/-- How many rows a clause keeps or skips. -/
def countValue (x : Extracted) (clause : String) : Expr → Result Json
  | .literal (.number digits _) =>
    match Text.nat64OfChars? digits.toList with
    | some n => .ok (.nat n)
    | none => .error (.invalidExpression s!"{clause} must be a non-negative integer, got {digits}")
  | other => x.unsupported s!"{clause} must be an integer literal, got '{other.text}'" clause

/-- How many rows a clause keeps or skips, if it is there. -/
def countValue? (x : Extracted) (clause : String) : Option Expr → Result (Option Json)
  | none => .ok none
  | some e => some <$> countValue x clause e

/-- Fails for a clause that selects cannot have; `text` is the text of the select. -/
def SelectClauses.check {ε ρ : Type} (x : Extracted) (s : SelectClauses ε ρ) (text : String) :
    Result Unit :=
  let other : Result Unit := x.unsupported s!"unsupported select clause in '{text}'" ""
  if s.top.isSome || s.into.isSome || !s.lateralViews.isEmpty || !s.placement.isEmpty then other
  else if s.windows.isSome then x.unsupported "named windows are not supported" "window"
  else if s.qualify.isSome then other
  else .ok ()

/-- Fails for a clause that queries cannot have; `text` is the text of the query. -/
def QueryClauses.check {ε β κ : Type} (x : Extracted) (q : QueryClauses ε β κ) (text : String) :
    Result Unit :=
  if q.fetch.isSome then x.unsupported "FETCH is not supported, use LIMIT" "fetch"
  else if !q.locks.isEmpty then x.unsupported "locking clauses are not supported" "for "
  else if q.forClause.isSome then x.unsupported s!"unsupported query clause in '{text}'" ""
  else .ok ()

/-- Whether a query has clauses around its body. -/
def QueryClauses.hasTail {ε β κ : Type} (q : QueryClauses ε β κ) : Bool :=
  !q.ctes.isEmpty || !q.orderBy.isEmpty || q.limit.isSome || q.offset.isSome

/-- Whether the rows of a query come from other queries. -/
def Body.isCombined : Body → Bool
  | .nested _ | .compound .. => true
  | _ => false

/-- An object with further fields. -/
def extended (value : Json) (more : Fields) : Json :=
  match value with
  | .object fields => .object (fields ++ more)
  | other => other

/-- The field that marks rows that count once. -/
def Distinctness.lower (x : Extracted) : Distinctness → Result Fields
  | .none => .ok []
  | .distinct => .ok [("distinct", .bool true)]
  | .on _ => x.unsupported "DISTINCT ON is not supported" "distinct on"

/-- Whether a set operation keeps duplicates. -/
def SetQuantifier.keepsAll (x : Extracted) (op : SetOperator) : SetQuantifier → Result Bool
  | .all => .ok true
  | .none | .distinct => .ok false
  | other => x.unsupported s!"{op.name.toUpper} {other.words} is not supported" ""

/-- A joined view. -/
def joinValue (kind : String) (view : Json) (on : Option Json) : Json :=
  .object ([("type", .string "join"), ("joinType", .string kind), ("view", view)] ++ field? "on" on)

/-- The sort order of a value. -/
def sortValue (value : Json) (ascending nullsFirst : Option Bool) : Json :=
  .object ([("type", .string "sort"), ("value", value)]
    ++ field? "direction" (ascending.map fun b => .string (if b then "asc" else "desc"))
    ++ field? "nulls" (nullsFirst.map fun b => .string (if b then "first" else "last")))

/-! ## Constructs -/

mutual

/-- The value of an expression. -/
def Expr.lower (x : Extracted) : Expr → Result Json
  | .column name =>
    match name with
    | [column] => .ok (columnValue column.text none)
    | [view, column] => .ok (columnValue column.text (some view.text))
    | _ =>
      let text := nameText name
      x.unsupported s!"column names with more than two parts are not supported: {text}" text
  | .literal value => value.lower x
  | .nested e => e.lower x
  | .binary left op right =>
    match op with
    | "AND" => do return junction "and" [← left.lower x, ← right.lower x]
    | "OR" => do return junction "or" [← left.lower x, ← right.lower x]
    | op => do
      let name ← operatorName x op
      return operation name [← left.lower x, ← right.lower x]
  | .unary op e =>
    match op, e with
    | "-", .literal (.number digits _) => numberValue ("-" ++ digits)
    | "-", e => do return operation "-" [← e.lower x]
    | "+", e => e.lower x
    | "NOT", e => do return operation "not" [← e.lower x]
    | op, _ => x.unsupported s!"unary operator {op} is not supported" op
  | .is e negated value => do
    let value := match value with
      | some b => Json.bool b
      | none => .null
    return operation (if negated then "is not" else "is") [← e.lower x, value]
  | .between e negated low high => do
    return operation (negatable negated "between") [← e.lower x, ← low.lower x, ← high.lower x]
  | .inList e negated items => do
    let values ← lowerExprs x items
    return operation (negatable negated "in") [← e.lower x, listOf values]
  | .inQuery e negated query => do
    return operation (negatable negated "in") [← e.lower x, ← query.lower x]
  | .exists negated query => do return operation (negatable negated "exists") [← query.lower x]
  | .subquery query => query.lower x
  | .like e negated anyCase _ pattern escape => do
    if escape.isSome then
      let word := if anyCase then "ILIKE" else "LIKE"
      x.unsupported s!"{word} ... ESCAPE is not supported" "escape"
    else
      let name := negatable negated (if anyCase then "ilike" else "like")
      return operation name [← e.lower x, ← pattern.lower x]
  | .quantified left op word right => do
    let name ← operatorName x op
    let operands := [← left.lower x, ← right.lower x]
    return .object [("type", .string "operator"), ("value", .string name),
      ("operands", .array operands),
      ("qualifier", .string (if word == "ALL" then "all" else "any"))]
  | .case operand branches otherwise => do
    let operand ← lowerExpr? x operand
    let cases ← lowerBranches x operand branches
    let otherwise ← lowerExpr? x otherwise
    return .object ([("type", .string "case"), ("cases", .array cases)]
      ++ field? "defaultCase" otherwise)
  | .cast form e type format =>
    if form == .attempt || form == .safe || format.isSome then
      let text := form.text e.text type format
      x.unsupported s!"cast form is not supported: {text}" ""
    else
      match e with
      | .literal (.string .plain text) => typedValue type text
      | e => do
        let cast ← CastType.ofName type
        return Json.tagged (← e.lower x) none (some cast.name)
  | .typed type text => typedValue type text
  | .interval value unit precision =>
    match value with
    | .literal (.string .plain text) => intervalValue text unit
    | value =>
      let text := (Expr.interval value unit precision).text
      x.unsupported s!"interval must be a string literal: {text}" "interval"
  | .call name args clauses =>
    match name with
    | [ident] => do
      let name := ident.text.map Char.toLower
      let text := (Expr.call [ident] args clauses).text
      clauses.check x name text
      lowerCall x name text args
    | name =>
      let text := nameText name
      x.unsupported s!"qualified function names are not supported: {text}" text
  | .extract field e => do
    return application "date_part" [.string (field.map Char.toLower), ← e.lower x]
  | .substring e start length _ => do
    let text ← e.lower x
    let start ← lowerExpr? x start
    let length ← lowerExpr? x length
    return application "substring" (text :: start.getD (.nat 1) :: length.toList)
  | .rounding up e _ => do return application (if up then "ceil" else "floor") [← e.lower x]
  | .array _ items => do return .array (← lowerExprs x items)
  | .row items => do return listOf (← lowerExprs x items)
  | .foreign text => x.unsupported s!"expression is not supported: {text}" text

/-- The values of expressions. -/
def lowerExprs (x : Extracted) : List Expr → Result (List Json)
  | [] => .ok []
  | e :: es => do
    let value ← e.lower x
    return value :: (← lowerExprs x es)

/-- The value of an expression, if there is one. -/
def lowerExpr? (x : Extracted) : Option Expr → Result (Option Json)
  | none => .ok none
  | some e => some <$> e.lower x

/-- The values of the branches of a case; an operand is compared with each condition. -/
def lowerBranches (x : Extracted) (operand : Option Json) : List (Expr × Expr) → Result (List Json)
  | [] => .ok []
  | (condition, result) :: rest => do
    let condition ← condition.lower x
    let condition := match operand with
      | some operand => operation "=" [operand, condition]
      | none => condition
    let result ← result.lower x
    return .array [condition, result] :: (← lowerBranches x operand rest)

/-- The value of a call of a function; `text` is the text of the whole call. -/
def lowerCall (x : Extracted) (name text : String) : CallArguments Expr Query → Result Json
  | .absent => .ok (callValue name [] false)
  | .query _ => x.unsupported "subquery function arguments are not supported" name
  | .list multiplicity args clauses => do
    if clauses.isEmpty then
      let values ← lowerArguments x name (args.length == 1) args
      return callValue name values (multiplicity == some .distinct)
    else x.unsupported s!"function argument clauses are not supported: {text}" name

/-- The values of the arguments of a function. Rows can be counted with a wildcard in place of the
only argument. -/
def lowerArguments (x : Extracted) (name : String) (single : Bool) :
    List (CallArgument Expr) → Result (List Json)
  | [] => .ok []
  | .expr e :: rest => do
    let value ← e.lower x
    return value :: (← lowerArguments x name single rest)
  | .wildcard :: rest =>
    if name == "count" && single then lowerArguments x name single rest
    else x.unsupported "function argument is not supported: *" name
  | .foreign text :: _ => x.unsupported s!"function argument is not supported: {text}" name

/-- The value of a query. Clauses around a select become fields of its value. -/
def Query.lower (x : Extracted) : Query → Result Json
  | .mk clauses@⟨recursive, ctes, body, orderBy, limit, offset, _, _, _, _⟩ => do
    clauses.check x (Query.mk clauses).text
    if clauses.hasTail && body.isCombined then
      x.unsupported "WITH, ORDER BY, LIMIT and OFFSET cannot wrap a set operation" ""
    else
      let value ← body.lower x
      if recursive then x.unsupported "WITH RECURSIVE is not supported" "recursive"
      else
        let ctes ← lowerCtes x ctes
        let orderBy ← lowerSorts x orderBy
        let limit ← countValue? x "LIMIT" limit
        let offset ← countValue? x "OFFSET" offset
        return extended value (listField? "with" ctes ++ listField? "orderBy" orderBy
          ++ field? "limit" limit ++ field? "offset" offset)

/-- The values of common tables. -/
def lowerCtes (x : Extracted) : List (Cte Query) → Result (List Json)
  | [] => .ok []
  | ⟨label, query, modifier, source⟩ :: rest => do
    if modifier.isSome || source.isSome then
      x.unsupported "CTE modifiers are not supported" "materialized"
    else
      let label ← label.lower x
      let value ← query.lower x
      return Json.tagged value (some label) none :: (← lowerCtes x rest)

/-- The values of sort orders. -/
def lowerSorts (x : Extracted) : List (SortKey Expr) → Result (List Json)
  | [] => .ok []
  | ⟨value, ascending, nullsFirst⟩ :: rest => do
    let value ← value.lower x
    return sortValue value ascending nullsFirst :: (← lowerSorts x rest)

/-- The value of what gives the rows of a query. -/
def Body.lower (x : Extracted) : Body → Result Json
  | .select s => .object <$> lowerSelect x s
  | .nested query => query.lower x
  | .compound op quantifier left right => do
    let all ← quantifier.keepsAll x op
    let left ← left.lower x
    let right ← right.lower x
    return .object ([("type", .string "select"), (op.name, .array [left, right])]
      ++ if all then [("all", .bool true)] else [])
  | .values _ => x.unsupported "VALUES lists are not supported" "values"
  | .foreign text => x.unsupported s!"unsupported query body '{text}'" ""

/-- The fields of a select. -/
def lowerSelect (x : Extracted) : SelectClauses Expr Relation → Result Fields
  | clauses@⟨distinctness, _, items, _, source, _, filter, groupBy, _, having, _, _, _⟩ => do
    clauses.check x (Body.select clauses).text
    let marks ← distinctness.lower x
    let source ← lowerSource x source
    let columns ← lowerItems x items
    let filter ← lowerExpr? x filter
    let groupBy ← lowerGroupBy x groupBy
    let having ← lowerExpr? x having
    return [("type", .string "select")] ++ marks ++ source ++ [("columns", .array columns)]
      ++ field? "where" filter ++ listField? "groupBy" groupBy ++ field? "having" having

/-- The values of the columns of a select. -/
def lowerItems (x : Extracted) : List (Item Expr) → Result (List Json)
  | [] => .ok []
  | item :: rest => do
    let value ← lowerItem x item
    return value :: (← lowerItems x rest)

/-- The value of a column of a select. -/
def lowerItem (x : Extracted) : Item Expr → Result Json
  | .expr e => e.lower x
  | .aliased e label => do return Json.tagged (← e.lower x) (some label.text) none
  | .wildcard => .ok (columnValue "*" none)
  | .wildcardOf name =>
    match name with
    | [view] => .ok (columnValue "*" (some view.text))
    | name =>
      let text := nameText name
      x.unsupported s!"qualified wildcard {text}.* is not supported" text

/-- The values of what rows are grouped by. -/
def lowerGroupBy (x : Extracted) : GroupBy Expr → Result (List Json)
  | .all => x.unsupported "GROUP BY ALL is not supported" "group by all"
  | .keys keys => lowerExprs x keys

/-- The fields with the relations of a select. The first relation is where the rows come from; all
others are joined to it. -/
def lowerSource (x : Extracted) : List (JoinedRelation Expr Relation) → Result Fields
  | [] => .ok []
  | ⟨relation, joins⟩ :: rest => do
    let (view, lateral) ← relation.lower x
    if lateral then x.unsupported "LATERAL is only allowed in joins" "lateral"
    else
      let joins ← lowerJoins x joins
      let others ← lowerOthers x rest
      return ("from", view) :: listField? "joins" (joins ++ others)

/-- The joins that further relations of a select stand for. -/
def lowerOthers (x : Extracted) : List (JoinedRelation Expr Relation) → Result (List Json)
  | [] => .ok []
  | ⟨relation, joins⟩ :: rest => do
    let (view, lateral) ← relation.lower x
    let first := joinValue (if lateral then "lateral" else "cross") view none
    let joins ← lowerJoins x joins
    return first :: joins ++ (← lowerOthers x rest)

/-- The values of joins. -/
def lowerJoins (x : Extracted) : List (Join Expr Relation) → Result (List Json)
  | [] => .ok []
  | ⟨relation, kind, constraint, _⟩ :: rest => do
    let (view, lateral) ← relation.lower x
    let (name, on) ← match kind with
      | .inner => do pure ("inner", ← lowerConstraint x constraint)
      | .left => do pure ("left", ← lowerConstraint x constraint)
      | .right => do pure ("right", ← lowerConstraint x constraint)
      | .cross => pure (if lateral then "lateral" else "cross", none)
      | .full => x.unsupported "FULL JOIN is not supported" "full"
      | .foreign words _ => x.unsupported s!"join type {words} is not supported" "join"
    if lateral && name != "lateral" then
      x.unsupported "LATERAL subqueries only support CROSS JOIN" "lateral"
    else return joinValue name view on :: (← lowerJoins x rest)

/-- The value of the condition of a join, if there is one. -/
def lowerConstraint (x : Extracted) : JoinConstraint Expr → Result (Option Json)
  | .on e => some <$> e.lower x
  | .none => .ok none
  | .using _ => x.unsupported "JOIN ... USING is not supported, use ON" "using"
  | .natural => x.unsupported "NATURAL JOIN is not supported" "natural"

/-- The value of a relation, and whether it depends on those before it. -/
def Relation.lower (x : Extracted) : Relation → Result (Json × Bool)
  | .table name args _ label _ => do return (← tableValue x name args.isSome label, false)
  | .derived lateral query label => do
    let label ← lowerAlias? x label
    let value ← query.lower x
    return (Json.tagged value label none, lateral)
  | .joined _ _ => x.unsupported "parenthesized joins are not supported" "("
  | .foreign text => x.unsupported s!"unsupported relation '{text}'" ""

end

end AnalyticQuery.Sql
