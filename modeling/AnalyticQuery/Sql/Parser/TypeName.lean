import AnalyticQuery.Sql.Parser.Basic

/-!
# Type names

The names of SQL types with their sizes. The names of built-in types are normalized; all others are
kept as they are written.
-/

namespace AnalyticQuery.Sql

/-- What a type name stands for. -/
inductive TypeKind where
  | builtin
  | interval
  | custom
  deriving DecidableEq, Repr

/-- A type name. -/
structure TypeName where
  text : String
  kind : TypeKind := .builtin
  deriving DecidableEq, Repr

namespace TypeName

open Parse

/-- The built-in types without a size, with their normalized names. -/
def plainTypes : List (String × String) :=
  [("BOOLEAN", "BOOLEAN"), ("BOOL", "BOOL"), ("REAL", "REAL"), ("FLOAT4", "FLOAT4"),
    ("FLOAT8", "FLOAT8"), ("FLOAT32", "Float32"), ("FLOAT64", "FLOAT64"), ("INT16", "Int16"),
    ("INT32", "Int32"), ("INT64", "INT64"), ("INT128", "Int128"), ("INT256", "Int256"),
    ("UINT8", "UInt8"), ("UINT16", "UInt16"), ("UINT32", "UInt32"), ("UINT64", "UInt64"),
    ("UINT128", "UInt128"), ("UINT256", "UInt256"), ("UUID", "UUID"), ("DATE", "DATE"),
    ("DATE32", "Date32"), ("JSON", "JSON"), ("JSONB", "JSONB"), ("REGCLASS", "REGCLASS"),
    ("TEXT", "TEXT"), ("BYTEA", "BYTEA"), ("TRIGGER", "TRIGGER")]

/-- The built-in types with a size. -/
def sizedTypes : List String :=
  ["FLOAT", "CLOB", "BLOB", "BINARY", "VARBINARY", "BYTES", "DATETIME", "STRING", "TIMESTAMPTZ",
    "TIMETZ"]

/-- The built-in types of whole numbers, which can be unsigned. -/
def wholeTypes : List String :=
  ["TINYINT", "INT2", "SMALLINT", "MEDIUMINT", "INT", "INT4", "INT8", "INTEGER", "BIGINT"]

/-- The built-in types with a precision and a scale. -/
def exactTypes : List String := ["NUMERIC", "DECIMAL", "DEC", "BIGNUMERIC", "BIGDECIMAL"]

/-- Reads a size in parentheses, if there is one. -/
def size : Parse String := do
  if ← seesSymbol "(" then
    let n ← parenthesized natural
    return s!"({n})"
  else return ""

/-- Reads a precision and a scale in parentheses, if there are any. -/
def precisionAndScale : Parse String := do
  if ← seesSymbol "(" then
    parenthesized do
      let precision ← natural
      if ← acceptSymbol "," then
        let scale ← natural
        return s!"({precision},{scale})"
      else return s!"({precision})"
  else return ""

/-- Reads a length in characters, if there is one. -/
def characterLength : Parse String := do
  if ← seesSymbol "(" then
    parenthesized do
      if ← accept "MAX" then return "(MAX)"
      let length ← natural
      let unit ← acceptOneOf ["CHARACTERS", "OCTETS"]
      return s!"({length}{spaced unit})"
  else return ""

/-- Reads whether a time has a zone. -/
def timeZone : Parse String := do
  match ← acceptOneOf ["WITH", "WITHOUT"] with
  | some word =>
    expectAll ["TIME", "ZONE"]
    return s!" {word} TIME ZONE"
  | none => return ""

/-- Reads what follows a type of characters. -/
def characters (word : String) : Parse String := do
  if ← accept "VARYING" then
    let length ← characterLength
    return s!"{word} VARYING{length}"
  else if ← acceptAll ["LARGE", "OBJECT"] then
    let length ← size
    return s!"{word} LARGE OBJECT{length}"
  else
    let length ← characterLength
    return word ++ length

/-- Reads strings in parentheses. -/
def strings : Parse String := do
  let values ← parenthesized (commaSeparated do
    match ← peek? with
    | some (.string .plain text) =>
      advance
      return quotedText '\'' text
    | _ => unexpected)
  return s!"({commaList values})"

/-- Reads the precision and the time zone of a type of times. -/
def dateTime64 : Parse String := parenthesized do
  let precision ← natural
  if ← acceptSymbol "," then
    let zone ← stringText
    return s!"DateTime64({precision}, '{zone}')"
  else return s!"DateTime64({precision})"

/-- The text that a token gives to the modifiers of a type; none if it cannot stand there. -/
def modifier? : Token → Option String
  | .word text quoted => some (Token.word text quoted).text
  | .number digits _ => some digits
  | .string .plain text => some text
  | _ => none

/-- Reads the modifiers of a type up to the closing parenthesis. Commas may stand anywhere. -/
def modifiersUpTo : Nat → Parse (List String)
  | 0 => unexpected
  | bound + 1 => do
    if ← acceptSymbol ")" then return []
    else if ← acceptSymbol "," then modifiersUpTo bound
    else
      match (← peek?).bind modifier? with
      | some text =>
        advance
        return text :: (← modifiersUpTo bound)
      | none => unexpected

/-- Reads the name of a type that is not built in. -/
def custom : Parse TypeName := do
  let parts ← name
  if ← acceptSymbol "(" then
    let modifiers ← modifiersUpTo ((← get).length + 1)
    if modifiers.isEmpty then return ⟨nameText parts, .custom⟩
    else return ⟨s!"{nameText parts}({commaList modifiers})", .custom⟩
  else return ⟨nameText parts, .custom⟩

/-- Reads a closing angle bracket, unless it was read with the one before. The result tells whether
one too many was read. -/
def closeAngle (closed : Bool) : Parse Bool := do
  if closed then return false
  else if ← acceptSymbol ">" then return false
  else if ← acceptSymbol ">>" then return true
  else unexpected

/-- Reads brackets after a type. -/
def bracketsUpTo : Nat → TypeName → Parse TypeName
  | 0, type => return type
  | bound + 1, type => do
    if ← acceptSymbol "[" then
      let count ← attempt natural
      expectSymbol "]"
      let count := (count.map toString).getD ""
      bracketsUpTo bound ⟨s!"{type.text}[{count}]", .builtin⟩
    else return type

/-- Reads a type of a first word; `inner` reads the type of the elements of an array. -/
def first (inner : Parse (TypeName × Bool)) (word : String) : Parse (TypeName × Bool) := do
  let builtin (rest : Parse String) : Parse (TypeName × Bool) := do
    advance
    return (⟨← rest, .builtin⟩, false)
  match plainTypes.lookup word with
  | some text => builtin (return text)
  | none =>
    if sizedTypes.contains word then builtin do return word ++ (← size)
    else if exactTypes.contains word then builtin do return word ++ (← precisionAndScale)
    else if wholeTypes.contains word then builtin do
      let length ← size
      let unsigned ← accept "UNSIGNED"
      return if unsigned then word ++ length ++ " UNSIGNED" else word ++ length
    else
      match word with
      | "DOUBLE" => builtin do
        return if ← accept "PRECISION" then "DOUBLE PRECISION" else "DOUBLE"
      | "VARCHAR" | "NVARCHAR" => builtin do return word ++ (← characterLength)
      | "CHARACTER" | "CHAR" => builtin (characters word)
      | "DATETIME64" => builtin dateTime64
      | "TIMESTAMP" | "TIME" => builtin do
        let length ← size
        return word ++ length ++ (← timeZone)
      | "FIXEDSTRING" => builtin do
        let length ← parenthesized natural
        return s!"FixedString({length})"
      | "ENUM" | "SET" => builtin do return word ++ (← strings)
      | "INTERVAL" =>
        advance
        return (⟨"INTERVAL", .interval⟩, false)
      | "ARRAY" =>
        advance
        expectSymbol "<"
        let (element, closed) ← inner
        let closed ← closeAngle closed
        return (⟨s!"ARRAY<{element.text}>", .builtin⟩, closed)
      | _ => return (← custom, false)

/-- Reads a type name, and whether a closing angle bracket was read after it. The bound counts
arrays inside each other. -/
def upTo : Nat → Parse (TypeName × Bool)
  | 0 => unexpected
  | bound + 1 => do
    match ← peek? with
    | some (.word text quoted) =>
      let (type, closed) ← first (upTo bound) (Token.keyword (.word text quoted))
      let type ← bracketsUpTo ((← get).length) type
      return (type, closed)
    | _ => unexpected

end TypeName

/-- Reads a type name. A closing angle bracket too many is a fault without a place of its own. -/
def Parse.typeName : Parse TypeName := do
  let (type, closed) ← TypeName.upTo ((← get).length)
  if closed then
    let next := ((← Parse.peek?).map Token.text).getD ""
    throw (.malformed s!"an angle bracket closes nothing after {type.text}{next}" none)
  else return type

end AnalyticQuery.Sql
