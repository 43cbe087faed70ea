import AnalyticQuery.Engine.Render
import AnalyticQuery.Sql.Basic

/-!
# Normalized SQL text

The text of SQL constructs with key words in capital letters, names and literals as they are written
and single spaces.
-/

namespace AnalyticQuery.Sql

/-! ## Names and literals -/

/-- Doubles a quote inside quoted text, except where it is doubled already or follows a
backslash. -/
def escapeQuote (quote : Char) : Char → List Char → List Char
  | _, [] => []
  | previous, c :: cs =>
    if c == quote then
      if previous == '\\' then c :: escapeQuote quote previous cs
      else
        match cs with
        | [] => [c, c]
        | d :: rest =>
          if d == quote then c :: c :: escapeQuote quote c rest
          else c :: c :: d :: escapeQuote quote d rest
    else c :: escapeQuote quote c cs

/-- Text between quotes. -/
def quotedText (quote : Char) (text : String) : String :=
  String.ofList (quote :: escapeQuote quote '\x00' text.toList ++ [quote])

/-- A character of an escaped string. -/
def escapedChar (c : Char) : List Char :=
  match c with
  | '\'' => ['\\', '\'']
  | '\\' => ['\\', '\\']
  | '\n' => ['\\', 'n']
  | '\t' => ['\\', 't']
  | '\r' => ['\\', 'r']
  | c => [c]

/-- A number in capital hexadecimal digits, with leading zeros. -/
def hexDigits (width n : Nat) : List Char :=
  let ds := (Nat.toDigits 16 n).map Char.toUpper
  List.replicate (width - ds.length) '0' ++ ds

/-- A character of a string with code points. -/
def unicodeChar (c : Char) : List Char :=
  if c == '\'' then ['\'', '\'']
  else if c == '\\' then ['\\', '\\']
  else if c.toNat < 128 then [c]
  else if c.toNat ≤ 0xFFFF then '\\' :: hexDigits 4 c.toNat
  else '\\' :: '+' :: hexDigits 6 c.toNat

/-- The text of a string literal. -/
def StringForm.literal (form : StringForm) (text : String) : String :=
  match form with
  | .plain => quotedText '\'' text
  | .escaped => form.opening ++ String.ofList (text.toList.flatMap escapedChar) ++ form.closing
  | .unicode => form.opening ++ String.ofList (text.toList.flatMap unicodeChar) ++ form.closing
  | _ => form.opening ++ text ++ form.closing

/-- The text of a literal. -/
def Literal.text : Literal → String
  | .number digits long => if long then digits ++ "L" else digits
  | .string form text => form.literal text
  | .quoted text => quotedText '"' text
  | .bool value => if value then "true" else "false"
  | .null => "NULL"
  | .placeholder text => text

/-- The text of a name. -/
def Ident.sql (name : Ident) : String :=
  match name.quote with
  | some quote => quotedText quote name.text
  | none => name.text

/-- The text of a name with parts. -/
def nameText (name : List Ident) : String := ".".intercalate (name.map Ident.sql)

/-- Names in a list. -/
def identList (names : List Ident) : String := commaList (names.map Ident.sql)

/-- The text of an alias. -/
def TableAlias.text (label : TableAlias) : String :=
  if label.columns.isEmpty then label.name.sql
  else s!"{label.name.sql} ({identList label.columns})"

/-- An alias after a relation. -/
def aliasSuffix : Option TableAlias → String
  | none => ""
  | some label => " AS " ++ label.text

/-! ## Words -/

/-- `NOT` before a test. -/
def notWord (negated : Bool) : String := if negated then "NOT " else ""

/-- Text with a space before it, if there is any. -/
def spaced : Option String → String
  | none => ""
  | some text => " " ++ text

/-- A clause of a word and a text, if there is one. -/
def clauseText (word : String) : Option String → String
  | none => ""
  | some text => s!" {word} {text}"

/-- The words of a sort order. -/
def sortWords (ascending nullsFirst : Option Bool) : String :=
  (match ascending with
    | none => ""
    | some true => " ASC"
    | some false => " DESC") ++
  match nullsFirst with
    | none => ""
    | some true => " NULLS FIRST"
    | some false => " NULLS LAST"

/-- The words of a quantifier of a set operation. -/
def SetQuantifier.words : SetQuantifier → String
  | .none => ""
  | .all => "ALL"
  | .distinct => "DISTINCT"
  | .byName => "BY NAME"
  | .allByName => "ALL BY NAME"
  | .distinctByName => "DISTINCT BY NAME"

/-- The words of a kind of join. -/
def JoinKind.words : JoinKind → String
  | .inner => "JOIN"
  | .left => "LEFT JOIN"
  | .right => "RIGHT JOIN"
  | .full => "FULL JOIN"
  | .cross => "CROSS JOIN"
  | .foreign words _ => words

/-- What follows the relation in a kind of join. -/
def JoinKind.condition : JoinKind → String
  | .foreign _ condition => condition
  | _ => ""

/-- The text of a cast. -/
def CastForm.text (form : CastForm) (e type : String) (format : Option String) : String :=
  let format := clauseText "FORMAT" format
  let inside := s!"({e} AS {type}{format})"
  match form with
  | .call => "CAST" ++ inside
  | .attempt => "TRY_CAST" ++ inside
  | .safe => "SAFE_CAST" ++ inside
  | .colons => s!"{e}::{type}"

/-- The text of what follows the arguments of a call. -/
def CallClauses.text (clauses : CallClauses) : String :=
  spaced clauses.withinGroup ++ spaced clauses.filter ++ spaced clauses.nulls
    ++ clauseText "OVER" clauses.window

/-- The text of a select around its list of columns, relations and groups. -/
def SelectClauses.text {ε ρ : Type} (s : SelectClauses ε ρ) (items : List String)
    (source : List String) (filter : Option String) (groupBy having : Option String) : String :=
  let distinct := match s.distinct with
    | .none => ""
    | .distinct => " DISTINCT"
    | .on text => s!" DISTINCT ON ({text})"
  let source := if source.isEmpty then none else some (commaList source)
  let windows := clauseText "WINDOW" s.windows
  let qualify := clauseText "QUALIFY" s.qualify
  "SELECT" ++ distinct ++ spaced s.top ++ " " ++ commaList items ++ spaced s.into
    ++ clauseText "FROM" source ++ String.join s.lateralViews ++ clauseText "WHERE" filter
    ++ clauseText "GROUP BY" groupBy ++ String.join (s.placement.map (" " ++ ·))
    ++ clauseText "HAVING" having
    ++ if s.windowsFirst then windows ++ qualify else qualify ++ windows

/-- The text of a query around its common tables, body and orders. -/
def QueryClauses.text {ε β κ : Type} (q : QueryClauses ε β κ) (ctes : List String) (body : String)
    (orderBy : List String) (limit offset : Option String) : String :=
  let recursive := if q.recursive then "RECURSIVE " else ""
  let withs := if ctes.isEmpty then "" else s!"WITH {recursive}{commaList ctes} "
  let orderBy := if orderBy.isEmpty then none else some (commaList orderBy)
  withs ++ body ++ clauseText "ORDER BY" orderBy ++ clauseText "LIMIT" limit
    ++ clauseText "OFFSET" (offset.map (· ++ spaced q.offsetRows)) ++ spaced q.fetch
    ++ String.join (q.locks.map (" " ++ ·)) ++ spaced q.forClause

/-! ## Constructs -/

mutual

/-- The text of an expression. -/
def Expr.text : Expr → String
  | .column name => nameText name
  | .literal value => value.text
  | .nested e => s!"({e.text})"
  | .binary left op right => s!"{left.text} {op} {right.text}"
  | .unary op e =>
    if op == "NOT" then s!"NOT {e.text}" else if op == "!" then s!"{e.text}!" else s!"{op}{e.text}"
  | .is e negated value =>
    let what := match value with
      | none => "NULL"
      | some true => "TRUE"
      | some false => "FALSE"
    s!"{e.text} IS {notWord negated}{what}"
  | .between e negated low high => s!"{e.text} {notWord negated}BETWEEN {low.text} AND {high.text}"
  | .inList e negated items => s!"{e.text} {notWord negated}IN ({commaList (exprTexts items)})"
  | .inQuery e negated query => s!"{e.text} {notWord negated}IN ({query.text})"
  | .exists negated query => s!"{notWord negated}EXISTS ({query.text})"
  | .subquery query => s!"({query.text})"
  | .like e negated anyCase anyOf pattern escape =>
    let word := if anyCase then "ILIKE" else "LIKE"
    let gap := if anyCase && escape.isSome then "" else " "
    let any := if anyOf then "ANY" ++ gap else ""
    s!"{e.text} {notWord negated}{word} {any}{pattern.text}"
      ++ clauseText "ESCAPE" (escape.map fun c => "'" ++ c ++ "'")
  | .quantified left op word right =>
    match right with
    | .subquery query => s!"{left.text} {op} {word}({query.text})"
    | e => s!"{left.text} {op} {word}({e.text})"
  | .case operand branches otherwise =>
    "CASE" ++ spaced (exprText? operand) ++ branchTexts branches
      ++ clauseText "ELSE" (exprText? otherwise) ++ " END"
  | .cast form e type format => form.text e.text type format
  | .typed type text => type ++ " " ++ quotedText '\'' text
  | .interval value unit precision => s!"INTERVAL {value.text}{spaced unit}{precision}"
  | .call name args clauses => nameText name ++ argumentsText args ++ clauses.text
  | .extract field e => s!"EXTRACT({field} FROM {e.text})"
  | .substring e start length commas =>
    let part (word : String) : Option String → String
      | none => ""
      | some text => if commas then ", " ++ text else s!" {word} {text}"
    s!"SUBSTRING({e.text}" ++ part "FROM" (exprText? start) ++ part "FOR" (exprText? length) ++ ")"
  | .rounding up e unit =>
    let word := if up then "CEIL" else "FLOOR"
    s!"{word}({e.text}{unit})"
  | .array named items =>
    let word := if named then "ARRAY" else ""
    s!"{word}[{commaList (exprTexts items)}]"
  | .row items => s!"({commaList (exprTexts items)})"
  | .foreign text => text

/-- The texts of expressions. -/
def exprTexts : List Expr → List String
  | [] => []
  | e :: es => e.text :: exprTexts es

/-- The text of an expression, if there is one. -/
def exprText? : Option Expr → Option String
  | none => none
  | some e => some e.text

/-- The text of the branches of a case. -/
def branchTexts : List (Expr × Expr) → String
  | [] => ""
  | (condition, result) :: rest => s!" WHEN {condition.text} THEN {result.text}" ++ branchTexts rest

/-- The text of an argument. -/
def argumentText : CallArgument Expr → String
  | .expr e => e.text
  | .wildcard => "*"
  | .foreign text => text

/-- The texts of arguments. -/
def argumentTexts : List (CallArgument Expr) → List String
  | [] => []
  | arg :: args => argumentText arg :: argumentTexts args

/-- The text of arguments in parentheses. -/
def argumentsText : CallArguments Expr Query → String
  | .absent => ""
  | .query query => s!"({query.text})"
  | .list multiplicity args clauses =>
    let word := match multiplicity with
      | none => ""
      | some .all => "ALL "
      | some .distinct => "DISTINCT "
    s!"({word}{commaList (argumentTexts args)}" ++ String.join (clauses.map (" " ++ ·)) ++ ")"

/-- The text of a query. -/
def Query.text : Query → String
  | .mk clauses@⟨_, ctes, body, orderBy, limit, offset, _, _, _, _⟩ =>
    clauses.text (cteTexts ctes) body.text (sortTexts orderBy) (exprText? limit) (exprText? offset)

/-- The texts of common tables. -/
def cteTexts : List (Cte Query) → List String
  | [] => []
  | ⟨label, query, modifier, source⟩ :: rest =>
    (s!"{label.text} AS{spaced modifier} ({query.text})"
      ++ clauseText "FROM" (source.map Ident.sql)) :: cteTexts rest

/-- The texts of sort orders. -/
def sortTexts : List (SortKey Expr) → List String
  | [] => []
  | ⟨value, ascending, nullsFirst⟩ :: rest =>
    (value.text ++ sortWords ascending nullsFirst) :: sortTexts rest

/-- The text of what gives the rows of a query. -/
def Body.text : Body → String
  | .select clauses@⟨_, _, items, _, source, _, filter, groupBy, _, having, _, _, _⟩ =>
    clauses.text (itemTexts items) (joinedTexts source) (exprText? filter) (groupText? groupBy)
      (exprText? having)
  | .nested query => s!"({query.text})"
  | .compound op quantifier left right =>
    let words := match quantifier with
      | .none => op.name.toUpper
      | quantifier => op.name.toUpper ++ " " ++ quantifier.words
    s!"{left.text} {words} {right.text}"
  | .values text => text
  | .foreign text => text

/-- The texts of the columns of a select. -/
def itemTexts : List (Item Expr) → List String
  | [] => []
  | .expr e :: rest => e.text :: itemTexts rest
  | .aliased e label :: rest => s!"{e.text} AS {label.sql}" :: itemTexts rest
  | .wildcard :: rest => "*" :: itemTexts rest
  | .wildcardOf name :: rest => (nameText name ++ ".*") :: itemTexts rest

/-- The text of what rows are grouped by, if there is anything. -/
def groupText? : GroupBy Expr → Option String
  | .all => some "ALL"
  | .keys [] => none
  | .keys (e :: es) => some (commaList (e.text :: exprTexts es))

/-- The texts of relations with those joined to them. -/
def joinedTexts : List (JoinedRelation Expr Relation) → List String
  | [] => []
  | ⟨relation, joins⟩ :: rest => (relation.text ++ joinTexts joins) :: joinedTexts rest

/-- The text of joins. -/
def joinTexts : List (Join Expr Relation) → String
  | [] => ""
  | ⟨relation, kind, constraint, global⟩ :: rest =>
    let start := if global then " GLOBAL " else " "
    let (natural, suffix) := constraintText constraint
    s!"{start}{natural}{kind.words} {relation.text}{kind.condition}{suffix}" ++ joinTexts rest

/-- The word before a join and the text after it that its constraint gives. -/
def constraintText : JoinConstraint Expr → String × String
  | .on e => ("", s!" ON {e.text}")
  | .using columns => ("", s!" USING({identList columns})")
  | .natural => ("NATURAL ", "")
  | .none => ("", "")

/-- The text of a relation. -/
def Relation.text : Relation → String
  | .table name args ordinality label hints =>
    let suffix := if ordinality then " WITH ORDINALITY" else ""
    let hints := match exprTexts hints with
      | [] => ""
      | hints => s!" WITH ({commaList hints})"
    nameText name ++ tableArgumentsText args ++ suffix ++ aliasSuffix label ++ hints
  | .derived lateral query label =>
    let word := if lateral then "LATERAL " else ""
    s!"{word}({query.text}){aliasSuffix label}"
  | .joined ⟨relation, joins⟩ label => s!"({relation.text}{joinTexts joins}){aliasSuffix label}"
  | .foreign text => text

/-- The text of the arguments of a table function. -/
def tableArgumentsText : Option (List (CallArgument Expr)) → String
  | none => ""
  | some args => s!"({commaList (argumentTexts args)})"

end

end AnalyticQuery.Sql
