import AnalyticQuery.Json.Basic

/-!
# Short expressions

A short expression `@name(arguments)` is a compact form of an expression. Arguments given by
position come first, then those given by name, each name once.
-/

namespace AnalyticQuery

mutual

/-- An argument of a short expression. -/
inductive Argument where
  | null
  | bool (value : Bool)
  | number (value : Number)
  | string (value : String)
  | array (items : List Argument)
  /-- A raw data value. -/
  | json (value : Json)
  | short (value : Short)

/-- A short expression: a name in small letters, arguments by position, arguments by name. -/
inductive Short where
  | mk (name : String) (positional : List Argument) (named : List (String × Argument))

end

instance : Inhabited Argument := ⟨.null⟩

namespace Short

/-- The name of the form. -/
def name : Short → String
  | mk name _ _ => name

/-- The arguments by position. -/
def positional : Short → List Argument
  | mk _ positional _ => positional

/-- The arguments by name, in order. -/
def named : Short → List (String × Argument)
  | mk _ _ named => named

/-- A short expression without arguments; its name is put in small letters. -/
def ofName (name : String) : Short := mk name.toLower [] []

/-- Adds an argument by position. -/
def push (s : Short) (arg : Argument) : Short := mk s.name (s.positional ++ [arg]) s.named

/-- Sets the argument of a name among others: in its place where it is given, otherwise at the
end. -/
def setArg : List (String × Argument) → String → Argument → List (String × Argument)
  | [], key, arg => [(key, arg)]
  | entry :: entries, key, arg =>
    if entry.1 == key then (key, arg) :: entries else entry :: setArg entries key arg

/-- Sets an argument by name. -/
def set (s : Short) (key : String) (arg : Argument) : Short :=
  mk s.name s.positional (setArg s.named key arg)

/-- Whether an argument of this name is given. -/
def hasNamed (s : Short) (key : String) : Bool := s.named.any (·.1 == key)

end Short

namespace Argument

/-- The kind of an argument in words. -/
def typeName : Argument → String
  | null => "null"
  | bool _ => "boolean"
  | number _ => "number"
  | string _ => "string"
  | array _ => "array"
  | json _ => "json"
  | short _ => "short expression"

/-- The text of an argument that is a text. -/
def string? : Argument → Option String
  | string s => some s
  | _ => none

/-- Whether an argument is null. -/
def isNull : Argument → Bool
  | null => true
  | _ => false

mutual

/-- Equality of arguments; numbers and data are compared by value. -/
def same : Argument → Argument → Bool
  | .null, .null => true
  | .bool a, .bool b => a == b
  | .number m, .number n => m.sameValue n
  | .string s, .string t => s == t
  | .array xs, .array ys => sameItems xs ys
  | .json a, .json b => a.sameValue b
  | .short a, .short b => sameShort a b
  | _, _ => false

/-- Equality of two lists of arguments, one by one. -/
def sameItems : List Argument → List Argument → Bool
  | [], [] => true
  | x :: xs, y :: ys => same x y && sameItems xs ys
  | _, _ => false

/-- Whether each named argument has an equal one of the same name among others. -/
def sameNamed : List (String × Argument) → List (String × Argument) → Bool
  | [], _ => true
  | (key, arg) :: rest, others =>
    (match others.lookup key with
      | some other => same arg other
      | none => false) && sameNamed rest others

/-- Equality of short expressions; named arguments may stand in any order. -/
def sameShort : Short → Short → Bool
  | .mk m xs fs, .mk n ys gs =>
    m == n && sameItems xs ys && fs.length == gs.length && sameNamed fs gs

end

end Argument

instance : BEq Argument := ⟨Argument.same⟩

instance : BEq Short := ⟨Argument.sameShort⟩

end AnalyticQuery
