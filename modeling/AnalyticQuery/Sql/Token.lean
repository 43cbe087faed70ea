import AnalyticQuery.Sql.Keyword
import AnalyticQuery.Sql.Position

/-!
# Tokens of SQL text

The words, literals and signs that SQL text is made of, with the places where they stand.
-/

namespace AnalyticQuery.Sql

/-- How a string literal is written. -/
inductive StringForm where
  /-- In single quotes. -/
  | plain
  /-- With escapes, after `E`. -/
  | escaped
  /-- With code points, after `U&`. -/
  | unicode
  /-- After `N`. -/
  | national
  /-- Hexadecimal digits, after `X`. -/
  | hex
  /-- Between dollar signs, with or without a tag. -/
  | dollar (tag : Option String)
  deriving DecidableEq, Repr

namespace StringForm

/-- What stands before the text. -/
def opening : StringForm → String
  | plain => "'"
  | escaped => "E'"
  | unicode => "U&'"
  | national => "N'"
  | hex => "X'"
  | dollar tag => "$" ++ tag.getD "" ++ "$"

/-- What stands after the text. -/
def closing : StringForm → String
  | dollar tag => "$" ++ tag.getD "" ++ "$"
  | _ => "'"

end StringForm

/-- A token. -/
inductive Token where
  /-- A word, quoted or not. -/
  | word (text : String) (quoted : Bool)
  /-- A number; `long` if the letter `L` follows it. -/
  | number (digits : String) (long : Bool)
  /-- A string literal. -/
  | string (form : StringForm) (text : String)
  /-- A dollar sign and a name. -/
  | placeholder (text : String)
  /-- A sign, or a character without a meaning. -/
  | symbol (text : String)
  /-- An operator that users define. -/
  | operator (text : String)
  deriving DecidableEq, Repr

namespace Token

/-- The text of a token. -/
def text : Token → String
  | word text quoted => if quoted then "\"" ++ text ++ "\"" else text
  | number digits long => if long then digits ++ "L" else digits
  | string form text => form.opening ++ text ++ form.closing
  | placeholder text => text
  | symbol text => text
  | operator text => text

/-- An unquoted word in capital letters; empty for other tokens. -/
def keyword : Token → String
  | word text false => capitalized text
  | _ => ""

/-- Whether a token is a word without a meaning of its own. -/
def isPlainWord : Token → Bool
  | word _ true => true
  | word text false => !isKeyword (capitalized text)
  | _ => false

end Token

/-- A token and the place where it starts. -/
structure Located where
  token : Token
  position : Position
  deriving DecidableEq, Repr

end AnalyticQuery.Sql
