import AnalyticQuery.Sql.Parser.Call
import AnalyticQuery.Sql.Parser.TypeName

/-!
# Expressions

An expression starts with a primary expression. Operators follow as long as they bind tighter than
what stands around them.
-/

namespace AnalyticQuery.Sql

namespace Grammar

open Parse

/-! ## Precedence -/

/-- How tight the words of an operator bind. -/
def wordPrecedence : List String → Nat
  | "OR" :: _ => 10
  | "AND" :: _ => 20
  | "XOR" :: _ => 75
  | "IS" :: _ => 40
  | "DIV" :: _ => 90
  | "COLLATE" :: _ => 120
  | "AT" :: "TIME" :: "ZONE" :: _ => 110
  | "NOT" :: word :: _ => if tests.contains word then 60 else 0
  | word :: _ => if word == "OPERATOR" || tests.contains word then 60 else 0
  | [] => 0
where
  /-- The words of tests that can be negated. -/
  tests : List String := ["IN", "BETWEEN", "LIKE", "ILIKE", "RLIKE", "REGEXP", "SIMILAR"]

/-- The binary operators that signs write, with how tight they bind. -/
def signPrecedences : List (String × Nat) :=
  ["=", "==", "<", "<=", "<>", ">", ">=", "<=>", "~", "~*", "!~", "!~*", "~~", "~~*", "!~~",
    "!~~*"].map (·, 50)
  ++ ["|", "&", "->", "->>", "#>", "#>>", "@>", "<@", "#-", "@?", "@@", "?", "?&", "?|", "&&",
    "^@", "||", "#", ">>", "<<"].map (·, 70)
  ++ [("+", 80), ("-", 80), ("*", 90), ("/", 90), ("%", 90), ("^", 100)]

/-- How tight the operator that is next binds; zero if there is none. -/
def precedence (ts : List Located) : Nat :=
  match ts.head?.map Located.token with
  | some (.operator _) => 70
  | some (.symbol sign) =>
    match sign with
    | "::" => 140
    | "[" => 130
    | "!" => 70
    | sign => (signPrecedences.lookup sign).getD 0
  | some (.word _ false) => wordPrecedence ((ts.take 3).map (·.token.keyword))
  | _ => 0

/-! ## Fields of dates and times -/

/-- The units that can follow an interval. -/
def intervalUnits : List String :=
  ["YEAR", "MONTH", "WEEK", "DAY", "HOUR", "MINUTE", "SECOND", "CENTURY", "DECADE", "DOW", "DOY",
    "EPOCH", "ISODOW", "ISOYEAR", "JULIAN", "MICROSECOND", "MICROSECONDS", "MILLENIUM",
    "MILLENNIUM", "MILLISECOND", "MILLISECONDS", "NANOSECOND", "NANOSECONDS", "QUARTER", "TIMEZONE",
    "TIMEZONE_HOUR", "TIMEZONE_MINUTE"]

/-- The other fields of a date or time. -/
def otherFields : List String :=
  ["DAYOFWEEK", "DAYOFYEAR", "DATE", "DATETIME", "ISOWEEK", "TIME", "TIMEZONE_ABBR",
    "TIMEZONE_REGION"]

/-- Reads a field of a date or time. The known fields are written in capital letters. -/
def dateTimeField : Parse String := do
  let word ← peekWord
  if intervalUnits.contains word || otherFields.contains word then
    advance
    return word
  else return (← ident).sql

/-- Reads a precision in parentheses after a space, if there is one. -/
def precisionSuffix : Parse String := do
  match ← TypeName.size with
  | "" => return ""
  | size => return " " ++ size

/-- Reads what can follow the unit of an interval. -/
def intervalSuffix (unit : Option String) : Parse String := do
  if unit == some "SECOND" then
    if ← seesSymbol "(" then
      parenthesized do
        let precision ← natural
        if ← acceptSymbol "," then
          let scale ← natural
          return s!" ({precision}, {scale})"
        else return s!" ({precision})"
    else return ""
  else
    let precision ← precisionSuffix
    if ← accept "TO" then
      let field ← dateTimeField
      let scale ← if field == "SECOND" then precisionSuffix else pure ""
      return s!"{precision} TO {field}{scale}"
    else return precision

/-- Reads an interval after its first word. -/
def interval (primary : Parse Expr) : Parse Expr := do
  let value ← primary
  let unit ← acceptOneOf intervalUnits
  return .interval value unit (← intervalSuffix unit)

/-! ## Forms with words of their own -/

/-- Reads the branches of a case, each after its first word. -/
def branchesUpTo (g : Grammar) : Nat → Parse (List (Expr × Expr))
  | 0 => unexpected
  | bound + 1 => do
    let condition ← g.expr
    expect "THEN"
    let result ← g.expr
    if ← accept "WHEN" then return (condition, result) :: (← g.branchesUpTo bound)
    else return [(condition, result)]

/-- Reads a case after its first word. -/
def case (g : Grammar) : Parse Expr := do
  let operand ← do
    if ← accept "WHEN" then pure none
    else
      let operand ← g.expr
      expect "WHEN"
      pure (some operand)
  let branches ← g.branchesUpTo ((← get).length + 1)
  let otherwise ← following "ELSE" g.expr
  expect "END"
  return .case operand branches otherwise

/-- Reads a cast after its first word. -/
def cast (g : Grammar) (form : CastForm) : Parse Expr := parenthesized do
  let e ← g.expr
  expect "AS"
  let type ← typeName
  let format ← following "FORMAT" do
    let format ← literal
    if ← acceptAll ["AT", "TIME", "ZONE"] then
      let zone ← literal
      return s!"{format.text} AT TIME ZONE {zone.text}"
    else return format.text
  return .cast form e type.text format

/-- Reads a conversion after its first word. -/
def convert (g : Grammar) : Parse Expr := parenthesized do
  let e ← g.expr
  if ← accept "USING" then
    let charset ← name
    return .foreign s!"CONVERT({e.text} USING {nameText charset})"
  else
    expectSymbol ","
    let type ← typeName
    if ← acceptAll ["CHARACTER", "SET"] then
      let charset ← name
      return .foreign s!"CONVERT({e.text}, {type.text} CHARACTER SET {nameText charset})"
    else return .foreign s!"CONVERT({e.text}, {type.text})"

/-- Reads the query of a test for rows after its first word. -/
def existence (g : Grammar) (negated : Bool) : Parse Expr := do
  return .exists negated (← parenthesized g.query)

/-- Reads the field of a date or time after its first word. -/
def extract (g : Grammar) : Parse Expr := parenthesized do
  let field ← dateTimeField
  if !(← accept "FROM") then throw (.malformed "a field without FROM" none)
  return .extract field (← g.expr)

/-- Reads the rounding of a number after its first word. -/
def rounding (g : Grammar) (up : Bool) : Parse Expr := parenthesized do
  let e ← g.expr
  if ← accept "TO" then
    let field ← dateTimeField
    return .rounding up e s!" TO {field}"
  else if ← acceptSymbol "," then
    match ← literal with
    | .number digits long => return .rounding up e s!", {(Literal.number digits long).text}"
    | _ => throw (.malformed "the scale is not a number" none)
  else return .rounding up e ""

/-- Reads the position of a text after its first word, or a call of a function of that name. -/
def position (g : Grammar) (primary : Parse Expr) (word : Ident) : Parse Expr := do
  let form ← attempt (parenthesized do
    let part ← g.tighter 60
    expect "IN"
    let whole ← g.expr
    return Expr.foreign s!"POSITION({part.text} IN {whole.text})")
  match form with
  | some e => return e
  | none => g.call (interval primary) [word]

/-- Reads a part of a text after its first word. -/
def substring (g : Grammar) : Parse Expr := parenthesized do
  let e ← g.expr
  let commas ← acceptSymbol ","
  let start ← given (← if commas then pure true else accept "FROM") g.expr
  let length ← given (← if ← accept "FOR" then pure true else acceptSymbol ",") g.expr
  return .substring e start length commas

/-- Reads the replacement of a part of a text after its first word. -/
def overlay (g : Grammar) : Parse Expr := parenthesized do
  let e ← g.expr
  expect "PLACING"
  let part ← g.expr
  expect "FROM"
  let start ← g.expr
  let length ← following "FOR" g.expr
  let length := clauseText "FOR" (length.map Expr.text)
  return .foreign s!"OVERLAY({e.text} PLACING {part.text} FROM {start.text}{length})"

/-- Reads the trimming of a text after its first word. -/
def trim (g : Grammar) : Parse Expr := parenthesized do
  let side ← acceptOneOf ["BOTH", "LEADING", "TRAILING"]
  let side := (side.map (· ++ " ")).getD ""
  let e ← g.expr
  if ← accept "FROM" then
    let whole ← g.expr
    return .foreign s!"TRIM({side}{e.text} FROM {whole.text})"
  else
    let _ ← acceptSymbol ","
    return .foreign s!"TRIM({side}{e.text})"

/-- Reads the elements of an array after the opening bracket. -/
def elements (g : Grammar) : Parse (List Expr) := do
  if ← acceptSymbol "]" then return []
  let items ← g.exprs
  expectSymbol "]"
  return items

/-! ## Primary expressions -/

/-- Reads a function of the clock, whose arguments may be missing. -/
def clock (g : Grammar) (word : Ident) : Parse Expr := do
  if ← acceptSymbol "(" then return .call [word] (← g.arguments) {}
  else return .call [word] .absent {}

/-- Reads a column, a call or a string with an introducer. -/
def named (g : Grammar) (primary : Parse Expr) (word : Ident) : Parse Expr := do
  match ← peek? with
  | some (.symbol "(") => g.call (interval primary) [word]
  | some (.symbol ".") =>
    let (parts, star) ← wildcardParts ((← get).length)
    let name := word :: parts
    if star then return .foreign (nameText name ++ ".*")
    else if ← seesSymbol "(" then g.call (interval primary) name
    else return .column name
  | some (.string .plain text) => introduced (.string .plain text)
  | some (.string .hex text) => introduced (.string .hex text)
  | _ => return .column [word]
where
  /-- Reads a string if its introducer precedes it. -/
  introduced (value : Literal) : Parse Expr := do
    if word.text.startsWith "_" then
      advance
      return .foreign s!"{word.text} {value.text}"
    else return .column [word]

/-- Reads a literal or a parenthesized list. -/
def enclosed (g : Grammar) : Parse Expr := do
  let e ← parenthesized do
    if ← seesQuery then return .subquery (← g.query)
    match ← g.exprs with
    | [e] => return .nested e
    | items => return .row items
  if ← acceptSymbol "." then
    match ← peek? with
    | some (.word text quoted) =>
      advance
      return .foreign s!"{e.text}.{(identOf text quoted).sql}"
    | _ => unexpected
  else return e

/-- Reads a primary expression that starts with a word, after that word. -/
def wordPrimary (g : Grammar) (primary : Parse Expr) (word : Ident) (key : String) :
    Parse Expr := do
  match key with
  | "CURRENT_CATALOG" | "CURRENT_USER" | "SESSION_USER" | "USER" => return .call [word] .absent {}
  | "CURRENT_TIMESTAMP" | "CURRENT_TIME" | "CURRENT_DATE" | "LOCALTIME" | "LOCALTIMESTAMP" =>
    g.clock word
  | "TRUE" => return .literal (.bool true)
  | "FALSE" => return .literal (.bool false)
  | "NULL" => return .literal .null
  | "CASE" => g.case
  | "CONVERT" => g.convert
  | "CAST" => g.cast .call
  | "TRY_CAST" => g.cast .attempt
  | "SAFE_CAST" => g.cast .safe
  | "EXISTS" => g.existence false
  | "EXTRACT" => g.extract
  | "CEIL" => g.rounding true
  | "FLOOR" => g.rounding false
  | "SUBSTRING" => g.substring
  | "OVERLAY" => g.overlay
  | "TRIM" => g.trim
  | "INTERVAL" => interval primary
  | "NOT" =>
    if ← accept "EXISTS" then g.existence true else return .unary "NOT" (← g.tighter 30)
  | "POSITION" => if ← seesSymbol "(" then g.position primary word else g.named primary word
  | "ARRAY" =>
    if ← acceptSymbol "[" then return .array true (← g.elements)
    else if ← seesSymbol "(" then return .call [word] (.query (← parenthesized g.query)) {}
    else g.named primary word
  | _ => g.named primary word

/-- Reads a primary expression that does not start with the name of a type. -/
def plainPrimary (g : Grammar) (primary : Parse Expr) : Parse Expr := do
  match ← peek? with
  | some (.word text quoted) =>
    let key ← peekWord
    advance
    g.wordPrimary primary (identOf text quoted) key
  | some (.symbol sign) =>
    match sign with
    | "(" => g.enclosed
    | "[" =>
      advance
      return .array false (← g.elements)
    | "-" | "+" =>
      advance
      return .unary sign (← g.tighter 90)
    | "!!" | "|/" | "||/" | "@" | "~" =>
      advance
      return .unary sign (← g.tighter 80)
    | _ => return .literal (← literal)
  | _ => return .literal (← literal)

/-- Reads a literal after the name of its type, or an interval. -/
def typedLiteral (primary : Parse Expr) : Parse Expr := do
  let type ← typeName
  match type.kind with
  | .interval => interval primary
  | .builtin => return .typed type.text (← stringText)
  | .custom => unexpected

/-- Reads a primary expression. The bound counts intervals whose values are intervals. -/
def primaryUpTo (g : Grammar) : Nat → Parse Expr
  | 0 => unexpected
  | bound + 1 => do
    let primary := g.primaryUpTo bound
    match ← attempt (typedLiteral primary) with
    | some e => return e
    | none =>
      let e ← g.plainPrimary primary
      if ← accept "COLLATE" then
        let collation ← name
        return .foreign s!"{e.text} COLLATE {nameText collation}"
      else return e

/-- Reads a primary expression. -/
def primary (g : Grammar) : Parse Expr := do g.primaryUpTo ((← get).length + 1)

/-! ## Operators -/

/-- Reads the right side of an operator, which can be a comparison with some or all elements. The
tokens from the operator on are given. -/
def operand (g : Grammar) (start : List Located) (left : Expr) (op : String) : Parse Expr := do
  let right := g.tighter (precedence start)
  match ← acceptOneOf ["ANY", "ALL", "SOME"] with
  | none => return .binary left op (← right)
  | some word =>
    let opening ← get
    expectSymbol "("
    let e ← do
      if ← seesQuery then
        set opening
        right
      else
        let e ← right
        expectSymbol ")"
        pure e
    if ["=", "<>", "<", "<=", ">", ">="].contains op then return .quantified left op word e
    set start
    unexpectedText op

/-- Reads the parts of the name of an operator that is written out. -/
def operatorPartsUpTo : Nat → Parse (List String)
  | 0 => unexpected
  | bound + 1 => do
    match ← peek? with
    | some token =>
      advance
      if ← acceptSymbol "." then return token.text :: (← operatorPartsUpTo bound)
      else return [token.text]
    | none => unexpected

/-- Reads a test for a value after its first word. -/
def isTest (g : Grammar) (e : Expr) : Parse Expr := do
  let start ← get
  let negated ← accept "NOT"
  match ← peekWord with
  | "NULL" =>
    advance
    return .is e negated none
  | "TRUE" =>
    advance
    return .is e negated (some true)
  | "FALSE" =>
    advance
    return .is e negated (some false)
  | "UNKNOWN" =>
    advance
    return .foreign s!"{e.text} IS {notWord negated}UNKNOWN"
  | _ =>
    if ← acceptAll ["DISTINCT", "FROM"] then
      let other ← g.expr
      return .foreign s!"{e.text} IS {notWord negated}DISTINCT FROM {other.text}"
    else
      set start
      unexpected

/-- Reads the values of a test for membership after its first word. -/
def membership (g : Grammar) (e : Expr) (negated : Bool) : Parse Expr := do
  if ← accept "UNNEST" then
    let values ← parenthesized g.expr
    return .foreign s!"{e.text} {notWord negated}IN UNNEST({values.text})"
  else
    parenthesized do
      if ← seesQuery then return .inQuery e negated (← g.query)
      else return .inList e negated (← g.exprs)

/-- Reads the character that escapes others in a pattern. -/
def escape? : Parse (Option String) := following "ESCAPE" stringText

/-- Reads a test that can be negated. -/
def test (g : Grammar) (e : Expr) : Parse Expr := do
  let negated ← accept "NOT"
  let pattern := g.tighter 60
  match ← peekWord with
  | "IN" =>
    advance
    g.membership e negated
  | "BETWEEN" =>
    advance
    let low ← pattern
    expect "AND"
    return .between e negated low (← pattern)
  | "LIKE" =>
    advance
    let anyOf ← accept "ANY"
    let what ← pattern
    return .like e negated false anyOf what (← escape?)
  | "ILIKE" =>
    advance
    let anyOf ← accept "ANY"
    let what ← pattern
    return .like e negated true anyOf what (← escape?)
  | "REGEXP" =>
    advance
    let _ ← accept "RLIKE"
    let what ← pattern
    return .foreign s!"{e.text} {notWord negated}REGEXP {what.text}"
  | "RLIKE" =>
    advance
    let what ← pattern
    return .foreign s!"{e.text} {notWord negated}RLIKE {what.text}"
  | _ =>
    if ← acceptAll ["SIMILAR", "TO"] then
      let what ← pattern
      let escape := clauseText "ESCAPE" ((← escape?).map fun c => "'" ++ c ++ "'")
      return .foreign s!"{e.text} {notWord negated}SIMILAR TO {what.text}{escape}"
    else unexpected

/-- Reads an index or a slice after the opening bracket. -/
def subscript (g : Grammar) (e : Expr) : Parse Expr := do
  let whole (inside : String) : Expr := .foreign s!"{e.text}[{inside}]"
  let low ← do
    if ← acceptSymbol ":" then pure none else pure (some (← g.expr))
  let lowText := (low.map Expr.text).getD ""
  if ← acceptSymbol "]" then return whole (if low.isSome then lowText else ":")
  if low.isSome then expectSymbol ":"
  if ← acceptSymbol "]" then return whole s!"{lowText}:"
  let high ← g.expr
  if ← acceptSymbol "]" then return whole s!"{lowText}:{high.text}"
  expectSymbol ":"
  if ← acceptSymbol "]" then return whole s!"{lowText}:{high.text}"
  let stride ← g.expr
  expectSymbol "]"
  return whole s!"{lowText}:{high.text}:{stride.text}"

/-- Reads an operator that starts with a word, and what it needs to its right. -/
def wordOperator (g : Grammar) (start : List Located) (left : Expr) : Parse Expr := do
  match ← peekWord with
  | "AND" =>
    advance
    g.operand start left "AND"
  | "OR" =>
    advance
    g.operand start left "OR"
  | "XOR" =>
    advance
    g.operand start left "XOR"
  | "OPERATOR" =>
    advance
    let parts ← parenthesized (do operatorPartsUpTo ((← get).length + 1))
    let name := ".".intercalate parts
    g.operand start left s!"OPERATOR({name})"
  | "IS" =>
    advance
    g.isTest left
  | "AT" =>
    advance
    expectAll ["TIME", "ZONE"]
    let zone ← g.tighter (precedence start)
    return .foreign s!"{left.text} AT TIME ZONE {zone.text}"
  | "COLLATE" | "DIV" => unexpected
  | _ => g.test left

/-- Reads an operator and what it needs to its right. -/
def operator (g : Grammar) (left : Expr) : Parse Expr := do
  let start ← get
  match ← peek? with
  | some (.operator op) =>
    advance
    g.operand start left op
  | some (.symbol sign) =>
    advance
    match sign with
    | "::" => return .cast .colons left (← typeName).text none
    | "!" => return .unary "!" left
    | "[" => g.subscript left
    | sign => g.operand start left (if sign == "==" then "=" else sign)
  | _ => g.wordOperator start left

/-- Reads operators after an expression as long as they bind tighter than a precedence. The bound
counts the operators. -/
def operatorsUpTo (g : Grammar) (around : Nat) : Nat → Expr → Parse Expr
  | 0, e => return e
  | bound + 1, e => do
    if around < precedence (← get) then g.operatorsUpTo around bound (← g.operator e)
    else return e

/-- Reads an expression whose operators bind tighter than a precedence. Each operator has a
token. -/
def expression (g : Grammar) (around : Nat) : Parse Expr := do
  let e ← g.primary
  g.operatorsUpTo around ((← get).length) e

end Grammar

end AnalyticQuery.Sql
