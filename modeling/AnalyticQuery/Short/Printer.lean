import AnalyticQuery.Json.Printer
import AnalyticQuery.Short.Basic
import AnalyticQuery.Short.Reader

/-!
# Text of short expressions

The compact text of a short expression. A text argument stands without quotes where it is read back
as the same text.
-/

namespace AnalyticQuery

/-- The characters of texts that may stand without quotes. -/
def isBareChar (c : Char) : Bool :=
  c.isAlphanum || c == '_' || c == '.' || c == '*' || c == ':' || c == '/' || c == '-'

/-- The words that stand for truth values and null. -/
def isReservedWord (s : String) : Bool :=
  let word := s.toLower
  word == "true" || word == "false" || word == "null"

/-- Whether a text argument stands without quotes: it has plain characters only and is no reserved
word and no number. -/
def canBeBare (s : String) : Bool :=
  !s.isEmpty && s.toList.all isBareChar && !isReservedWord s && (Number.ofText? s).isNone

/-- A character inside single quotes. -/
def escapeQuoted (c : Char) : List Char :=
  if c == '\'' || c == '\\' then ['\\', c] else [c]

/-- The characters of a text argument. -/
def textChars (s : String) : List Char :=
  if canBeBare s then s.toList else '\'' :: s.toList.flatMap escapeQuoted ++ ['\'']

/-- Lists of characters joined by commas. -/
def joinCommas : List (List Char) → List Char
  | [] => []
  | [x] => x
  | x :: xs => x ++ ',' :: joinCommas xs

mutual

/-- The characters of an argument. -/
def Argument.chars : Argument → List Char
  | .null => ['n', 'u', 'l', 'l']
  | .bool true => ['t', 'r', 'u', 'e']
  | .bool false => ['f', 'a', 'l', 's', 'e']
  | .number n => n.text.toList
  | .string s => textChars s
  | .array items => '[' :: joinCommas (itemsChars items) ++ [']']
  | .json value => value.chars
  | .short s => shortChars s

/-- The characters of each argument of a list. -/
def itemsChars : List Argument → List (List Char)
  | [] => []
  | item :: items => item.chars :: itemsChars items

/-- The characters of each named argument. -/
def namedChars : List (String × Argument) → List (List Char)
  | [] => []
  | (key, arg) :: rest => (key.toList ++ '=' :: arg.chars) :: namedChars rest

/-- The characters of a short expression. -/
def shortChars : Short → List Char
  | .mk name positional named =>
    '@' :: name.toList ++ '(' :: joinCommas (itemsChars positional ++ namedChars named) ++ [')']

end

/-- The text of an argument. -/
def Argument.text (arg : Argument) : String := String.ofList arg.chars

/-- The text of a short expression. -/
def Short.text (s : Short) : String := String.ofList (shortChars s)

/-- A text with a short expression in its compact form; it is not asked whether the form exists. -/
def Short.sanitize (text : String) : Result String := do
  return (← Short.ofText text).text

/-- The query value of an argument. A nested short expression stays wrapped, so that it is expanded
where it is built. -/
def Argument.toQl : Argument → Json
  | .null => .null
  | .bool b => .bool b
  | .number n => .number n
  | .string s => .string s
  | .array items => .array (go items)
  | .json value => value
  | .short s => .object [("type", .string "short"), ("value", .string s.text)]
where
  /-- The query values of a list of arguments. -/
  go : List Argument → List Json
    | [] => []
    | item :: items => item.toQl :: go items

end AnalyticQuery
