import AnalyticQuery.Sql.Fault
import AnalyticQuery.Sql.Printer
import AnalyticQuery.Text.Integer

/-!
# Parsing tokens

A parse reads tokens from the front and leaves the rest. It fails at the token that it cannot use.
-/

namespace AnalyticQuery.Sql

/-- A parse of tokens. -/
abbrev Parse := StateT (List Located) (Except Fault)

namespace Parse

/-- Fails at the next token. -/
def unexpected {α : Type} : Parse α := do
  match ← get with
  | [] => throw .unexpectedEnd
  | t :: _ => throw (.unexpected t.token.text t.position)

/-- Fails at the next token because of a text that was read already. -/
def unexpectedText {α : Type} (found : String) : Parse α := do
  match ← get with
  | [] => throw .unexpectedEnd
  | t :: _ => throw (.unexpected found t.position)

/-- The next token, which is left where it is. -/
def peek? : Parse (Option Token) := do return (← get).head?.map (·.token)

/-- The next token as a key word; empty if it is none. -/
def peekWord : Parse String := do return ((← peek?).map Token.keyword).getD ""

/-- Drops the next token. -/
def advance : Parse Unit := modify (·.drop 1)

/-- Reads a key word if it is next. -/
def accept (word : String) : Parse Bool := do
  if (← peekWord) == word then
    advance
    return true
  else return false

/-- Reads key words if all of them are next. -/
def acceptAll (words : List String) : Parse Bool := do
  let ts ← get
  if (ts.take words.length).map (·.token.keyword) == words then
    set (ts.drop words.length)
    return true
  else return false

/-- Reads one of some key words if it is next. -/
def acceptOneOf (words : List String) : Parse (Option String) := do
  let word ← peekWord
  if words.contains word then
    advance
    return some word
  else return none

/-- Reads a key word. -/
def expect (word : String) : Parse Unit := do
  if !(← accept word) then unexpected

/-- Reads key words one after another. -/
def expectAll (words : List String) : Parse Unit := words.forM expect

/-- Reads one of some key words. -/
def expectOneOf (words : List String) : Parse String := do
  match ← acceptOneOf words with
  | some word => return word
  | none => unexpected

/-- Whether a sign is next. -/
def seesSymbol (sign : String) : Parse Bool := do return (← peek?) == some (.symbol sign)

/-- Reads a sign if it is next. -/
def acceptSymbol (sign : String) : Parse Bool := do
  if ← seesSymbol sign then
    advance
    return true
  else return false

/-- Reads a sign. -/
def expectSymbol (sign : String) : Parse Unit := do
  if !(← acceptSymbol sign) then unexpected

/-- Runs a parse if a flag is set. -/
def given {α : Type} (flag : Bool) (p : Parse α) : Parse (Option α) :=
  if flag then some <$> p else return none

/-- Runs a parse after a key word, if that is next. -/
def following {α : Type} (word : String) (p : Parse α) : Parse (Option α) := do
  given (← accept word) p

/-- Runs a parse between parentheses. -/
def parenthesized {α : Type} (p : Parse α) : Parse α := do
  expectSymbol "("
  let a ← p
  expectSymbol ")"
  return a

/-- Runs a parse and goes back if it fails, except where constructs are nested too deep. -/
def attempt {α : Type} (p : Parse α) : Parse (Option α) := fun ts =>
  match p ts with
  | .ok (a, rest) => .ok (some a, rest)
  | .error .tooDeep => .error .tooDeep
  | .error _ => .ok (none, ts)

/-- Reads at least one item; commas divide them. The bound counts the items. -/
def commaSeparatedUpTo {α : Type} (item : Parse α) : Nat → Parse (List α)
  | 0 => unexpected
  | bound + 1 => do
    let a ← item
    if ← acceptSymbol "," then return a :: (← commaSeparatedUpTo item bound)
    else return [a]

/-- Reads at least one item; commas divide them. There are no more items than tokens. -/
def commaSeparated {α : Type} (item : Parse α) : Parse (List α) := do
  commaSeparatedUpTo item ((← get).length + 1)

/-- Reads items until there is none. The bound counts the items. -/
def manyUpTo {α : Type} (item? : Parse (Option α)) : Nat → Parse (List α)
  | 0 => return []
  | bound + 1 => do
    match ← item? with
    | some a => return a :: (← manyUpTo item? bound)
    | none => return []

/-- Reads items until there is none. There are no more items than tokens. -/
def many {α : Type} (item? : Parse (Option α)) : Parse (List α) := do
  manyUpTo item? ((← get).length + 1)

/-! ## Names and literals -/

/-- The name that a word writes. -/
def identOf (text : String) (quoted : Bool) : Ident := ⟨text, if quoted then some '"' else none⟩

/-- The name that a token writes, if it is a word or a string. -/
def ident? : Token → Option Ident
  | .word text quoted => some (identOf text quoted)
  | .string .plain text => some ⟨text, some '\''⟩
  | _ => none

/-- Reads a name. -/
def ident : Parse Ident := do
  match (← peek?).bind ident? with
  | some name =>
    advance
    return name
  | none => unexpected

/-- Reads the parts of a name that follow points. -/
def nameParts : Nat → Parse (List Ident)
  | 0 => return []
  | bound + 1 => do
    if ← acceptSymbol "." then
      let part ← ident
      return part :: (← nameParts bound)
    else return []

/-- Reads a name with parts. -/
def name : Parse (List Ident) := do
  let first ← ident
  return first :: (← nameParts ((← get).length))

/-- Reads names in parentheses. -/
def identsInParentheses : Parse (List Ident) := parenthesized (commaSeparated ident)

/-- Reads names in parentheses if a parenthesis is next. -/
def optionalIdents : Parse (List Ident) := do
  if ← seesSymbol "(" then identsInParentheses else return []

/-- Reads a literal. -/
def literal : Parse Literal := do
  match ← peek? with
  | some (.number digits long) =>
    advance
    return .number digits long
  | some (.string form text) =>
    advance
    return .string form text
  | some (.placeholder text) =>
    advance
    return .placeholder text
  | some (.word text true) =>
    advance
    return .quoted text
  | some (.symbol sign) =>
    if sign == ":" || sign == "@" then
      advance
      match ← peek? with
      | some (.word name _) | some (.number name false) =>
        advance
        return .placeholder (sign ++ name)
      | _ => unexpected
    else unexpected
  | _ =>
    match ← peekWord with
    | "TRUE" =>
      advance
      return .bool true
    | "FALSE" =>
      advance
      return .bool false
    | "NULL" =>
      advance
      return .null
    | _ => unexpected

/-- Reads the text of a string; a plain word stands for itself. -/
def stringText : Parse String := do
  match ← peek? with
  | some (.string .plain text) | some (.string .escaped text) | some (.string .unicode text) =>
    advance
    return text
  | some (.word text quoted) =>
    if Token.isPlainWord (.word text quoted) then
      advance
      return text
    else unexpected
  | _ => unexpected

/-- Reads a whole number without sign. -/
def natural : Parse Nat := do
  match ← peek? with
  | some (.number digits _) =>
    match Text.nat64OfChars? digits.toList with
    | some n =>
      advance
      return n
    | none => unexpected
  | _ => unexpected

/-! ## Aliases -/

/-- Reads an alias. Without `AS` it cannot be one of some key words. -/
def alias? (reserved : List String) : Parse (Option Ident) := do
  let marked ← accept "AS"
  match ← peek? with
  | some (.word text quoted) =>
    if marked || quoted || !reserved.contains (capitalized text) then
      advance
      return some (identOf text quoted)
    else return none
  | some (.string .plain text) =>
    advance
    return some ⟨text, some '\''⟩
  | _ => if marked then unexpected else return none

/-- Reads the alias of a relation. -/
def tableAlias? : Parse (Option TableAlias) := do
  match ← alias? notTableAliases with
  | some name => return some ⟨name, ← optionalIdents⟩
  | none => return none

end Parse

end AnalyticQuery.Sql
