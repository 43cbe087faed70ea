import AnalyticQuery.Sql.Lexer
import AnalyticQuery.Sql.Lower
import AnalyticQuery.Sql.Parser.Query
import AnalyticQuery.Text.Blank

/-!
# Queries from SQL text

SQL text as a query value. Short expressions are cut out first and put back as values of their own;
the rest is a single query or an expression.
-/

namespace AnalyticQuery.Sql

namespace Extracted

/-- Whether a text is a query: `select` or `with` opens it, maybe after parentheses. -/
def isQuery (x : Extracted) : Bool :=
  let start := x.text.dropWhile fun c => Text.isBlank c || c == '('
  let word := (start.takeWhile Char.isAlpha).map Char.toLower
  word == "select".toList || word == "with".toList

/-- The offset in the source of a place in the new text. Offsets are signed words of 64 bits; one
below zero stands for the start. -/
def offsetOf (x : Extracted) (position : Position) : Nat :=
  (Int.bmod (x.sourceOffset (position.offset x.text % (1 <<< 64))) (1 <<< 64)).toNat

/-- The failure for text that is not SQL. -/
def invalid (x : Extracted) (fault : Fault) : Error :=
  .invalidSql fault.detail (fault.position?.map x.offsetOf)

/-- Parses the new text; what is left of its tokens is given back. -/
def parse {α : Type} (x : Extracted) (p : Parse α) : Result (α × List Located) :=
  match tokens x.text >>= p with
  | .ok result => .ok result
  | .error fault => .error (x.invalid fault)

/-- The value of a text that is a query. -/
def queryValue (x : Extracted) : Result Json := do
  match (← x.parse Parse.statements).1 with
  | [.query query] => query.lower x
  | [] => .error (.invalidSql "empty statement" (some 0))
  | [_] => x.unsupported "only SELECT statements are supported" ""
  | _ => x.unsupported "multiple statements are not supported" ";"

/-- The value of a text that is an expression. -/
def expressionValue (x : Extracted) : Result Json := do
  let (e, rest) ← x.parse Parse.expression
  match rest with
  | [] => e.lower x
  | next :: _ =>
    .error (.invalidSql s!"unexpected '{next.token.text}' after expression"
      (some (x.offsetOf next.position)))

end Extracted

/-- The query value of SQL text. -/
def toQl (sql : String) : Result Json := do
  let x ← extract sql
  if x.isQuery then x.queryValue else x.expressionValue

end AnalyticQuery.Sql
