import AnalyticQuery.Json.Basic

/-!
# Reading data values

A reader of the data format over lists of characters. Values nest at most 127 deep, and a key that
is written again keeps its first place and takes its last value.
-/

namespace AnalyticQuery.Json

/-- Whether a character may stand between tokens. -/
def isSpace (c : Char) : Bool := c == ' ' || c == '\n' || c == '\t' || c == '\r'

/-- The text without the blanks at its front. -/
def skipSpace (cs : List Char) : List Char := cs.dropWhile isSpace

/-- The value of a hexadecimal digit. -/
def hexValue? (c : Char) : Option Nat :=
  if c.isDigit then some (c.toNat - '0'.toNat)
  else if 'a' ≤ c ∧ c ≤ 'f' then some (c.toNat - 'a'.toNat + 10)
  else if 'A' ≤ c ∧ c ≤ 'F' then some (c.toNat - 'A'.toNat + 10)
  else none

/-- The number that four hexadecimal digits write. -/
def hexUnit? (a b c d : Char) : Option Nat := do
  return (← hexValue? a) * 4096 + (← hexValue? b) * 256 + (← hexValue? c) * 16 + (← hexValue? d)

/-- The character that a letter after a backslash stands for. -/
def shortEscape? : Char → Option Char
  | '"' => some '"'
  | '\\' => some '\\'
  | '/' => some '/'
  | 'b' => some '\x08'
  | 'f' => some '\x0c'
  | 'n' => some '\n'
  | 'r' => some '\r'
  | 't' => some '\t'
  | _ => none

/-- Whether a code unit is the first of a surrogate pair. -/
def isHighSurrogate (unit : Nat) : Bool := 0xD800 ≤ unit && unit ≤ 0xDBFF

/-- Whether a code unit is the second of a surrogate pair. -/
def isLowSurrogate (unit : Nat) : Bool := 0xDC00 ≤ unit && unit ≤ 0xDFFF

/-- Reads a quoted text after its opening quote; `done` holds the characters read, the last
first. -/
def readString? : List Char → List Char → Option (String × List Char)
  | _, [] => none
  | done, '"' :: cs => some (String.ofList done.reverse, cs)
  | done, '\\' :: 'u' :: a :: b :: c :: d :: '\\' :: 'u' :: e :: f :: g :: h :: cs =>
    match hexUnit? a b c d with
    | none => none
    | some unit =>
      if isHighSurrogate unit then
        match hexUnit? e f g h with
        | some low =>
          if isLowSurrogate low then
            readString?
              (Char.ofNat (0x10000 + (unit - 0xD800) * 0x400 + (low - 0xDC00)) :: done) cs
          else none
        | none => none
      else if isLowSurrogate unit then none
      else readString? (Char.ofNat unit :: done) ('\\' :: 'u' :: e :: f :: g :: h :: cs)
  | done, '\\' :: 'u' :: a :: b :: c :: d :: cs =>
    match hexUnit? a b c d with
    | none => none
    | some unit =>
      if isHighSurrogate unit || isLowSurrogate unit then none
      else readString? (Char.ofNat unit :: done) cs
  | done, '\\' :: c :: cs =>
    match shortEscape? c with
    | some c => readString? (c :: done) cs
    | none => none
  | done, c :: cs => if c.toNat < 32 || c == '\\' then none else readString? (c :: done) cs

/-- Reads a word letter by letter. -/
def readWord? : List Char → Json → List Char → Option (Json × List Char)
  | [], value, cs => some (value, cs)
  | w :: ws, value, c :: cs => if w == c then readWord? ws value cs else none
  | _ :: _, _, [] => none

mutual

/-- Reads one value from the front of a text, with at most `depth` levels of nesting. -/
def readValue? : Nat → Nat → List Char → Option (Json × List Char)
  | 0, _, _ => none
  | fuel + 1, depth, cs =>
    match skipSpace cs with
    | 'n' :: cs => readWord? ['u', 'l', 'l'] .null cs
    | 't' :: cs => readWord? ['r', 'u', 'e'] (.bool true) cs
    | 'f' :: cs => readWord? ['a', 'l', 's', 'e'] (.bool false) cs
    | '"' :: cs => (readString? [] cs).map fun (s, rest) => (.string s, rest)
    | '[' :: cs =>
      match depth with
      | 0 => none
      | depth + 1 =>
        match skipSpace cs with
        | ']' :: rest => some (.array [], rest)
        | cs => (readItems? fuel depth cs).map fun (items, rest) => (.array items, rest)
    | '\x7b' :: cs =>
      match depth with
      | 0 => none
      | depth + 1 =>
        match skipSpace cs with
        | '\x7d' :: rest => some (.object [], rest)
        | cs => (readFields? fuel depth [] cs).map fun (fields, rest) => (.object fields, rest)
    | cs => (Number.read? cs).map fun (n, rest) => (.number n, rest)

/-- Reads the items of an array that is not empty, up to its closing bracket. -/
def readItems? : Nat → Nat → List Char → Option (List Json × List Char)
  | 0, _, _ => none
  | fuel + 1, depth, cs =>
    match readValue? fuel depth cs with
    | none => none
    | some (item, cs) =>
      match skipSpace cs with
      | ',' :: cs => (readItems? fuel depth cs).map fun (items, rest) => (item :: items, rest)
      | ']' :: cs => some ([item], cs)
      | _ => none

/-- Reads the fields of an object that is not empty, up to its closing brace. -/
def readFields? : Nat → Nat → Fields → List Char → Option (Fields × List Char)
  | 0, _, _, _ => none
  | fuel + 1, depth, done, cs =>
    match skipSpace cs with
    | '"' :: cs =>
      match readString? [] cs with
      | none => none
      | some (key, cs) =>
        match skipSpace cs with
        | ':' :: cs =>
          match readValue? fuel depth cs with
          | none => none
          | some (value, cs) =>
            let done := done.insert key value
            match skipSpace cs with
            | ',' :: cs => readFields? fuel depth done cs
            | '\x7d' :: cs => some (done, cs)
            | _ => none
        | _ => none
    | _ => none

end

/-- The value that a whole text writes, if it writes one. -/
def ofText? (s : String) : Option Json :=
  let cs := s.toList
  match readValue? (2 * cs.length + 2) 127 cs with
  | some (value, rest) => if (skipSpace rest).isEmpty then some value else none
  | none => none

end AnalyticQuery.Json
