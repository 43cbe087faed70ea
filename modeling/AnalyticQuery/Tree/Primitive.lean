import AnalyticQuery.Json.Printer
import AnalyticQuery.Error
import AnalyticQuery.Short.Basic

/-!
# Constants

The scalar constants of a query and their SQL literals.
-/

namespace AnalyticQuery

/-- A text as an SQL literal: in single quotes, a quote inside written twice. -/
def quoteLiteral (s : String) : String :=
  String.ofList
    ('\'' :: s.toList.flatMap (fun c => if c == '\'' then ['\'', '\''] else [c]) ++ ['\''])

/-- The characters of a literal's inside, with single quotes for the doubled ones. -/
def unquoteChars? : List Char → Option (List Char)
  | [] => some []
  | '\'' :: '\'' :: cs => (unquoteChars? cs).map ('\'' :: ·)
  | c :: cs => if c == '\'' then none else (unquoteChars? cs).map (c :: ·)

/-- The text of an SQL literal, if the SQL is exactly one literal. -/
def unquoteLiteral? (sql : String) : Option String :=
  match sql.toList with
  | '\'' :: rest =>
    match rest.getLast? with
    | some '\'' => (unquoteChars? rest.dropLast).map String.ofList
    | _ => none
  | _ => none

/-- A constant. -/
inductive Primitive where
  | string (value : String)
  /-- An integer of a signed 64-bit word. -/
  | int (value : Int)
  | real (value : Binary64)
  | bool (value : Bool)
  | null
  deriving DecidableEq

namespace Primitive

/-- The constant of a number: an integer where a signed word holds it, otherwise a real number. -/
def ofNumber (n : Number) : Primitive :=
  match n.int64? with
  | some i => .int i
  | none => .real n.toBinary64

/-- The constant that a value is, if it is a scalar. -/
def ofJson (value : Json) : Result Primitive :=
  match value with
  | .null => .ok .null
  | .bool b => .ok (.bool b)
  | .string s => .ok (.string s)
  | .number n => .ok (ofNumber n)
  | other => .error (.invalidExpression s!"primitive value must be a scalar, got {other.text}")

/-- The constant as data. -/
def toJson : Primitive → Json
  | .string s => .string s
  | .int i => .int i
  | .real x => .number (.real x)
  | .bool b => .bool b
  | .null => .null

/-- The constant as an argument of a short expression. -/
def toArgument : Primitive → Argument
  | .string s => .string s
  | .int i => .number (.ofInt i)
  | .real x => .number (.real x)
  | .bool b => .bool b
  | .null => .null

/-- The SQL literal of a constant, the same for every engine. -/
def sql : Primitive → String
  | .string s => quoteLiteral s
  | .int i => toString i
  | .real x => x.plainText
  | .bool true => "TRUE"
  | .bool false => "FALSE"
  | .null => "NULL"

/-- The text of a constant that is a text. -/
def string? : Primitive → Option String
  | .string s => some s
  | _ => none

/-- Equality by value: the two zeros are equal. -/
def same : Primitive → Primitive → Bool
  | .real x, .real y => x.sameValue y
  | a, b => a == b

/-- A constant with a mark of its kind, for logs. -/
def summary : Primitive → String
  | .string s => s!"s: \"{s}\""
  | .int i => s!"i: {i}"
  | .real x => s!"f: {x.plainText}"
  | .bool b => s!"b: {b}"
  | .null => "n: NULL"

/-- A constant with the name of its kind, for logs. -/
def inspect (p : Primitive) : String :=
  let kind := match p with
    | .string _ => "String"
    | .int _ => "Int"
    | .real _ => "Float"
    | .bool _ => "Bool"
    | .null => "Null"
  s!"{kind}({p.summary})"

end Primitive

end AnalyticQuery
