import AnalyticQuery.Error
import AnalyticQuery.Json.Reader
import AnalyticQuery.Short.Basic
import AnalyticQuery.Text.Blank

/-!
# Reading short expressions

The reader of `@name(arguments)` over lists of characters. It does not ask whether the form exists.
A failure points at a character by the number of characters that are left there.
-/

namespace AnalyticQuery.Short

/-- Why and where reading stops. -/
structure Stop where
  /-- What is wrong. -/
  detail : String
  /-- The number of characters left at the place. -/
  remaining : Nat

/-- Stops in front of the characters left. -/
def stop {α : Type} (detail : String) (cs : List Char) : Except Stop α :=
  .error ⟨detail, cs.length⟩

/-- Whether a character can begin a name. -/
def isNameStart (c : Char) : Bool := c.isAlpha || c == '_'

/-- Whether a character can stand in a name. -/
def isNameChar (c : Char) : Bool := c.isAlphanum || c == '_'

/-- The characters without the blanks at the front. -/
def skip (cs : List Char) : List Char := Text.trimStart cs

/-- Reads one given character. -/
def expect (c : Char) : List Char → Except Stop (List Char)
  | [] => stop s!"expected '{c}', got end of input" []
  | d :: cs => if c == d then .ok cs else stop s!"expected '{c}', got '{d}'" (d :: cs)

/-- Reads a name, if one stands in front. -/
def readName? : List Char → Option (String × List Char)
  | [] => none
  | c :: cs =>
    if isNameStart c then
      some (String.ofList (c :: cs.takeWhile isNameChar), cs.dropWhile isNameChar)
    else none

/-- Reads a name and the equals sign after it, if both stand in front. -/
def readKey? (cs : List Char) : Option (String × List Char) :=
  match readName? cs with
  | none => none
  | some (key, rest) =>
    match skip rest with
    | '=' :: '=' :: _ => none
    | '=' :: rest => some (key, skip rest)
    | _ => none

/-- The characters of a balanced pair of braces in front and those after it; braces inside double
quotes do not count. `done` holds the characters passed, the last first. -/
def spanBraces : Nat → Bool → List Char → List Char → Option (List Char × List Char)
  | _, _, _, [] => none
  | _, true, _, ['\\'] => none
  | depth, true, done, '\\' :: c :: cs => spanBraces depth true (c :: '\\' :: done) cs
  | depth, true, done, c :: cs => spanBraces depth (c != '"') (c :: done) cs
  | depth, false, done, c :: cs =>
    if c == '\x7d' then
      match depth with
      | 0 | 1 => some ((c :: done).reverse, cs)
      | depth + 2 => spanBraces (depth + 1) false (c :: done) cs
    else if c == '\x7b' then spanBraces (depth + 1) false (c :: done) cs
    else spanBraces depth (c == '"') (c :: done) cs

/-- The characters up to the closing quote, without the backslash before an escaped one, and those
after it. -/
def spanQuoted (quote : Char) : List Char → List Char → Option (List Char × List Char)
  | _, [] => none
  | _, ['\\'] => none
  | done, '\\' :: c :: cs => spanQuoted quote (c :: done) cs
  | done, c :: cs => if c == quote then some (done.reverse, cs) else spanQuoted quote (c :: done) cs

/-- Whether a character ends a value without quotes. -/
def endsBare (c : Char) : Bool := c == ',' || c == ')' || c == ']'

/-- Whether a character is forbidden in a value without quotes. -/
def breaksBare (c : Char) : Bool :=
  c == '(' || c == '[' || c == '\x7b' || c == '\'' || c == '"'

/-- What a value without quotes stands for: a reserved word, a number, or else a text. -/
def bareValue (token : String) : Argument :=
  match token.toLower with
  | "null" => .null
  | "true" => .bool true
  | "false" => .bool false
  | _ =>
    match Number.ofText? token with
    | some n => .number n
    | none => .string token

/-- Reads a value without quotes. -/
def readBare (cs : List Char) : Except Stop (Argument × List Char) :=
  let token := cs.takeWhile fun c => !endsBare c && !breaksBare c
  let rest := cs.drop token.length
  match rest.head?.filter breaksBare with
  | some c => stop s!"unexpected '{c}' in unquoted value" rest
  | none =>
    let token := Text.trim (String.ofList token)
    if token.isEmpty then stop "expected a value" cs else .ok (bareValue token, rest)

/-- Reads a raw data value. -/
def readJson (cs : List Char) : Except Stop (Argument × List Char) :=
  match spanBraces 0 false [] cs with
  | none => stop "unterminated JSON object" cs
  | some (text, rest) =>
    match Json.ofText? (String.ofList text) with
    | some value => .ok (.json value, rest)
    | none => stop "invalid JSON: malformed object" cs

/-- Reads a text in quotes; the opening quote is given. -/
def readQuoted (quote : Char) (cs : List Char) : Except Stop (Argument × List Char) :=
  match spanQuoted quote [] cs with
  | some (text, rest) => .ok (.string (String.ofList text), rest)
  | none => stop "unterminated string" (quote :: cs)

mutual

/-- Reads a short expression; `fuel` bounds the number of nested steps. -/
def readShort : Nat → List Char → Except Stop (Short × List Char)
  | 0, cs => stop "nested too deeply" cs
  | fuel + 1, cs => do
    let cs ← expect '@' cs
    match readName? cs with
    | none => stop "expected a short expression name after '@'" cs
    | some (name, cs) =>
      let cs ← expect '(' (skip cs)
      match skip cs with
      | ')' :: cs => return (ofName name, cs)
      | cs => readArguments fuel (ofName name) cs

/-- Reads the arguments of a short expression up to the closing parenthesis. -/
def readArguments : Nat → Short → List Char → Except Stop (Short × List Char)
  | 0, _, cs => stop "nested too deeply" cs
  | fuel + 1, s, cs => do
    let cs := skip cs
    let (s, cs) ← match readKey? cs with
      | some (key, after) =>
        if s.hasNamed key then stop s!"duplicate named argument '{key}'" cs
        else
          let (arg, rest) ← readValue fuel after
          pure (s.set key arg, rest)
      | none =>
        if !s.named.isEmpty then stop "positional arguments must precede named arguments" cs
        else
          let (arg, rest) ← readValue fuel cs
          pure (s.push arg, rest)
    match skip cs with
    | ',' :: cs => readArguments fuel s cs
    | ')' :: cs => return (s, cs)
    | [] => stop "unterminated argument list" []
    | c :: cs => stop s!"expected ',' or ')', got '{c}'" (c :: cs)

/-- Reads an argument. -/
def readValue : Nat → List Char → Except Stop (Argument × List Char)
  | 0, cs => stop "nested too deeply" cs
  | fuel + 1, cs =>
    match skip cs with
    | '@' :: c :: cs =>
      if isNameStart c then do
        let (s, rest) ← readShort fuel ('@' :: c :: cs)
        return (.short s, rest)
      else readBare ('@' :: c :: cs)
    | '[' :: cs =>
      match skip cs with
      | ']' :: cs => .ok (.array [], cs)
      | _ => do
        let (items, rest) ← readItems fuel cs
        return (.array items, rest)
    | '\x7b' :: cs => readJson ('\x7b' :: cs)
    | '\'' :: cs => readQuoted '\'' cs
    | '"' :: cs => readQuoted '"' cs
    | cs => readBare cs

/-- Reads the items of an array up to the closing bracket. -/
def readItems : Nat → List Char → Except Stop (List Argument × List Char)
  | 0, cs => stop "nested too deeply" cs
  | fuel + 1, cs => do
    let (item, cs) ← readValue fuel cs
    match skip cs with
    | ',' :: cs =>
      let (items, rest) ← readItems fuel cs
      return (item :: items, rest)
    | ']' :: cs => return ([item], cs)
    | [] => stop "unterminated array" []
    | c :: cs => stop s!"expected ',' or ']', got '{c}'" (c :: cs)

end

/-- The fuel that is enough for a text. -/
def fuelFor (cs : List Char) : Nat := 2 * cs.length + 2

/-- The failure at the place where reading a text of this length stopped. -/
def Stop.toError (length : Nat) (at_ : Stop) : Error :=
  .shortSyntax at_.detail (length - at_.remaining)

/-- Reads a short expression from the front of a text, and the number of characters it takes. -/
def ofFront (cs : List Char) : Result (Short × Nat) :=
  match readShort (fuelFor cs) cs with
  | .ok (s, rest) => .ok (s, cs.length - rest.length)
  | .error at_ => .error (at_.toError cs.length)

/-- Reads a whole text as a short expression; blanks may stand around it. -/
def ofText (s : String) : Result Short :=
  let cs := s.toList
  let read : Except Stop Short := do
    let (expression, rest) ← readShort (fuelFor cs) (skip cs)
    match skip rest with
    | [] => return expression
    | c :: rest => stop s!"unexpected '{c}' after expression" (c :: rest)
  match read with
  | .ok expression => .ok expression
  | .error at_ => .error (at_.toError cs.length)

/-- Whether a short expression begins in front of the characters: an at sign, a name, and an opening
parenthesis after any blanks. -/
def startsAt : List Char → Bool
  | '@' :: cs =>
    match readName? cs with
    | none => false
    | some (_, rest) =>
      match skip rest with
      | '(' :: _ => true
      | _ => false
  | _ => false

end AnalyticQuery.Short
