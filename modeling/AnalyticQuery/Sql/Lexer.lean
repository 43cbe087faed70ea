import AnalyticQuery.Sql.Fault
import AnalyticQuery.Sql.Token
import AnalyticQuery.Text.Blank
import AnalyticQuery.Text.Word

/-!
# Reading tokens

Every rule reads from the front of the characters and gives what is left. A rule that fails gives
the characters from the place of the fault on. Blanks and comments are dropped; comments may nest.
-/

namespace AnalyticQuery.Sql.Lexer

/-- Whether a character can start a name. -/
def isNameStart (c : Char) : Bool := Text.isLetter c || c == '_'

/-- Whether a character can stand inside a name. -/
def isNameChar (c : Char) : Bool := Text.isLetter c || c.isDigit || c == '_' || c == '$'

/-- Whether a character can continue an operator that users define. -/
def isOperatorChar (c : Char) : Bool := "+-*/<>=~!@#%^&|\x60?".contains c

/-- Whether a character is a hexadecimal digit. -/
def isHexDigit (c : Char) : Bool :=
  c.isDigit || ('a' ≤ c && c ≤ 'f') || ('A' ≤ c && c ≤ 'F')

/-- The value of a hexadecimal digit. -/
def hexValue (c : Char) : Nat :=
  if c.isDigit then c.toNat - '0'.toNat
  else if c ≤ 'F' then c.toNat - 'A'.toNat + 10
  else c.toNat - 'a'.toNat + 10

/-- The character with a code point, unless it is a surrogate or out of range. -/
def charOfNat? (n : Nat) : Option Char := if n.isValidChar then some (Char.ofNat n) else none

/-- The value of digits in a base. -/
def valueOf (base : Nat) (ds : List Char) : Nat := ds.foldl (fun n c => n * base + hexValue c) 0

/-! ## Quoted text -/

/-- Reads up to a quote. A doubled quote stands for one. -/
def readQuoted? (quote : Char) : List Char → Option (List Char × List Char)
  | [] => none
  | c :: cs =>
    if c == quote then
      match cs with
      | d :: rest =>
        if d == quote then (readQuoted? quote rest).map fun (text, rest) => (quote :: text, rest)
        else some ([], d :: rest)
      | [] => some ([], [])
    else (readQuoted? quote cs).map fun (text, rest) => (c :: text, rest)

/-- The character that one after a backslash stands for in a literal with a mark. -/
def backslashed (c : Char) : Char :=
  match c with
  | '0' => '\x00'
  | 'a' => '\x07'
  | 'b' => '\x08'
  | 'f' => '\x0c'
  | 'n' => '\n'
  | 'r' => '\r'
  | 't' => '\t'
  | 'Z' => '\x1a'
  | c => c

/-- Reads up to a single quote. A doubled quote stands for one, and a backslash takes the next
character along. -/
def readBackslashed? : List Char → Option (List Char × List Char)
  | [] => none
  | '\'' :: '\'' :: rest => (readBackslashed? rest).map fun (text, rest) => ('\'' :: text, rest)
  | '\'' :: rest => some ([], rest)
  | '\\' :: c :: rest =>
    (readBackslashed? rest).map fun (text, rest) => (backslashed c :: text, rest)
  | ['\\'] => none
  | c :: rest => (readBackslashed? rest).map fun (text, rest) => (c :: text, rest)

/-- The code point written by digits, which may have a plus sign in front. -/
def codePoint? (ds : List Char) : Option Char :=
  let ds := match ds with
    | '+' :: rest => rest
    | _ => ds
  if !ds.isEmpty && ds.all isHexDigit then charOfNat? (valueOf 16 ds) else none

/-- The basic character whose code is the low byte of a number. -/
def byteChar? (n : Nat) : Option Char :=
  if n % 256 ≤ 127 then some (Char.ofNat (n % 256)) else none

/-- Whether a character is an octal digit. -/
def isOctalDigit (c : Char) : Bool := '0' ≤ c && c ≤ '7'

/-- Reads what follows a backslash in an escaped string. -/
def readEscape? : List Char → Option (Char × List Char)
  | [] => none
  | c :: cs =>
    match c with
    | 'b' => some ('\x08', cs)
    | 'f' => some ('\x0c', cs)
    | 'n' => some ('\n', cs)
    | 'r' => some ('\r', cs)
    | 't' => some ('\t', cs)
    | 'u' => if cs.length < 4 then none else (codePoint? (cs.take 4)).map (·, cs.drop 4)
    | 'U' => if cs.length < 8 then none else (codePoint? (cs.take 8)).map (·, cs.drop 8)
    | 'x' =>
      let ds := (cs.take 2).takeWhile isHexDigit
      if ds.isEmpty then some ('x', cs) else (byteChar? (valueOf 16 ds)).map (·, cs.drop ds.length)
    | c =>
      if isOctalDigit c then
        let ds := c :: (cs.take 2).takeWhile isOctalDigit
        (byteChar? (valueOf 8 ds)).map (·, (c :: cs).drop ds.length)
      else some (c, cs)

/-- Reads an escaped string after its opening quote. No escape can stand for the null character. -/
def readEscaped? : Nat → List Char → Option (List Char × List Char)
  | 0, _ => none
  | _, [] => none
  | fuel + 1, c :: cs =>
    let continued (d : Char) (rest : List Char) : Option (List Char × List Char) :=
      (readEscaped? fuel rest).map fun (text, rest) => (d :: text, rest)
    match c, cs with
    | '\'', '\'' :: rest => continued '\'' rest
    | '\'', rest => some ([], rest)
    | '\\', rest =>
      match readEscape? rest with
      | some (d, rest) => if d == '\x00' then none else continued d rest
      | none => none
    | c, rest => continued c rest

/-- Reads a number of hexadecimal digits as a code point. -/
def readHexChar (value : Nat) : Nat → List Char → Except (List Char) (Char × List Char)
  | 0, cs =>
    match charOfNat? value with
    | some c => .ok (c, cs)
    | none => .error cs
  | _ + 1, [] => .error []
  | count + 1, c :: cs =>
    if isHexDigit c then readHexChar (value * 16 + hexValue c) count cs else .error cs

/-- Reads a string with code points after its opening quote. -/
def readUnicode : Nat → List Char → Except (List Char) (List Char × List Char)
  | 0, cs => .error cs
  | _, [] => .error []
  | fuel + 1, c :: cs => do
    match c, cs with
    | '\'', '\'' :: rest =>
      let (text, rest) ← readUnicode fuel rest
      return ('\'' :: text, rest)
    | '\'', rest => return ([], rest)
    | '\\', '\\' :: rest =>
      let (text, rest) ← readUnicode fuel rest
      return ('\\' :: text, rest)
    | '\\', '+' :: rest =>
      let (d, rest) ← readHexChar 0 6 rest
      let (text, rest) ← readUnicode fuel rest
      return (d :: text, rest)
    | '\\', rest =>
      let (d, rest) ← readHexChar 0 4 rest
      let (text, rest) ← readUnicode fuel rest
      return (d :: text, rest)
    | c, rest =>
      let (text, rest) ← readUnicode fuel rest
      return (c :: text, rest)

/-- Reads up to two dollar signs; `pending` if one was just read. -/
def readDollars? : Bool → List Char → Option (List Char × List Char)
  | _, [] => none
  | true, '$' :: cs => some ([], cs)
  | false, '$' :: cs => readDollars? true cs
  | pending, c :: cs =>
    (readDollars? false cs).map fun (text, rest) =>
      (if pending then '$' :: c :: text else c :: text, rest)

/-- Compares characters with a tag, up to the first that differs. Gives the characters that were
read, what is left, and whether all agree; nothing if the text ends. -/
def matchTag? : List Char → List Char → Option (List Char × List Char × Bool)
  | [], cs => some ([], cs, true)
  | _ :: _, [] => none
  | t :: tag, c :: cs =>
    if c == t then
      (matchTag? tag cs).map fun (seen, rest, agree) => (c :: seen, rest, agree)
    else some ([c], cs, false)

/-- Reads up to a tag between dollar signs. -/
def readTagged? (tag : List Char) : Nat → List Char → Option (List Char × List Char)
  | 0, _ => none
  | fuel + 1, cs =>
    let text := cs.takeWhile (· != '$')
    match cs.dropWhile (· != '$') with
    | [] => none
    | _ :: rest =>
      match matchTag? tag rest with
      | none => none
      | some (_, '$' :: rest, true) => some (text, rest)
      | some (seen, rest, _) =>
        (readTagged? tag fuel rest).map fun (more, rest) => (text ++ '$' :: seen ++ more, rest)

/-! ## Comments -/

/-- Drops the rest of a comment with a number of open levels; `last` is the character before. -/
def dropComment : Nat → Char → List Char → Except (List Char) (List Char)
  | _, _, [] => .error []
  | levels, last, c :: cs =>
    if last == '/' && c == '*' then dropComment (levels + 1) c cs
    else if last == '*' && c == '/' then
      if levels ≤ 1 then .ok cs else dropComment (levels - 1) c cs
    else dropComment levels c cs

/-- Drops the rest of a line with its end. -/
def dropLine (cs : List Char) : List Char := (cs.dropWhile (· != '\n')).drop 1

/-! ## Tokens -/

/-- The signs of more than one character, and those that a longer operator can start with, the
longer before the shorter. The flag tells whether operator characters can follow. -/
def signs : List (String × Bool) :=
  [("->>", true), ("->", true), ("-", true), ("||/", true), ("||", true), ("|/", true), ("|", true),
    ("%", true), ("=>", false), ("==", false), ("!~~*", false), ("!~~", false), ("!~*", false),
    ("!~", false), ("!=", false), ("!!", false), ("<=>", true), ("<=", true), ("<>", true),
    ("<<", true), ("<@", true), ("<", true), (">=", true), (">>", true), (">", true), ("::", false),
    (":=", false), ("&&", true), ("&", true), ("^@", false), ("~~*", true), ("~~", true),
    ("~*", true), ("~", true), ("#>>", true), ("#>", true), ("#-", true), ("#", true),
    ("@>", false), ("@?", false), ("@@", false), ("?|", false), ("?&", false)]

/-- Reads a sign. Both spellings of "not equal" are one sign, and a lone question mark takes the
character after it along. -/
def readSign (c : Char) (cs : List Char) : Token × List Char :=
  match signs.find? fun sign => sign.1.toList.isPrefixOf (c :: cs) with
  | some (sign, extensible) =>
    let rest := (c :: cs).drop sign.length
    let more := if extensible then rest.takeWhile isOperatorChar else []
    if more.isEmpty then (.symbol (if sign == "!=" then "<>" else sign), rest)
    else (.operator (sign ++ String.ofList more), rest.drop more.length)
  | none => (.symbol c.toString, if c == '?' then cs.drop 1 else cs)

/-- Reads an exponent, if digits follow its mark and sign. -/
def readExponent : List Char → List Char × List Char
  | [] => ([], [])
  | mark :: cs =>
    let sign := cs.takeWhile fun c => c == '+' || c == '-'
    let sign := sign.take 1
    let ds := (cs.drop sign.length).takeWhile Char.isDigit
    if (mark == 'e' || mark == 'E') && !ds.isEmpty then
      (mark :: sign ++ ds, cs.drop (sign.length + ds.length))
    else ([], mark :: cs)

/-- Reads a number, a hexadecimal literal or a point. -/
def readNumber (cs : List Char) : Token × List Char :=
  let (whole, rest) := cs.span Char.isDigit
  match whole, rest with
  | ['0'], 'x' :: rest =>
    let (ds, rest) := rest.span isHexDigit
    (.string .hex (String.ofList ds), rest)
  | _, _ =>
    let (point, rest) := match rest with
      | '.' :: rest => (['.'], rest)
      | _ => ([], rest)
    let (fraction, rest) := rest.span Char.isDigit
    let digits := whole ++ point ++ fraction
    if digits == ['.'] then (.symbol ".", rest)
    else
      let (exponent, rest) := readExponent rest
      let (long, rest) := match rest with
        | 'L' :: rest => (true, rest)
        | _ => (false, rest)
      (.number (String.ofList (digits ++ exponent)) long, rest)

/-- The token of a string literal; `cs` starts with its opening quote, and `read?` is what was read
after that. -/
def stringToken (form : StringForm) (cs : List Char) (read? : Option (List Char × List Char)) :
    Except (List Char) (Option Token × List Char) :=
  match read? with
  | some (text, rest) => .ok (some (.string form (String.ofList text)), rest)
  | none => .error cs

/-- Reads what starts with a dollar sign, after it. -/
def readDollar : List Char → Except (List Char) (Token × List Char)
  | '$' :: cs =>
    match readDollars? false cs with
    | some (text, rest) => .ok (.string (.dollar none) (String.ofList text), rest)
    | none => .error []
  | cs =>
    let (tag, rest) := cs.span fun c => Text.isAlphanumeric c || c == '_'
    match rest with
    | '$' :: rest =>
      match readTagged? tag (rest.length + 1) rest with
      | some (text, rest) =>
        .ok (.string (.dollar (some (String.ofList tag))) (String.ofList text), rest)
      | none => .error []
    | _ => .ok (.placeholder (String.ofList ('$' :: tag)), rest)

/-- Reads a word. -/
def readWord (cs : List Char) : Token × List Char :=
  (.word (String.ofList (cs.takeWhile isNameChar)) false, cs.dropWhile isNameChar)

/-- Reads one token, or drops a blank or a comment. -/
def readOne : List Char → Except (List Char) (Option Token × List Char)
  | [] => .ok (none, [])
  | c :: cs => do
    let found (read : Token × List Char) : Option Token × List Char := (some read.1, read.2)
    match c.toUpper, cs with
    | 'N', '\'' :: rest => stringToken .national cs (readBackslashed? rest)
    | 'X', '\'' :: rest => stringToken .hex cs (readBackslashed? rest)
    | 'E', '\'' :: rest => stringToken .escaped (c :: cs) (readEscaped? (rest.length + 1) rest)
    | 'U', '&' :: '\'' :: rest =>
      let (text, rest) ← readUnicode (rest.length + 1) rest
      return (some (.string .unicode (String.ofList text)), rest)
    | '\'', rest => stringToken .plain (c :: cs) (readQuoted? '\'' rest)
    | '"', _ =>
      match readQuoted? '"' cs with
      | some (text, rest) => return (some (.word (String.ofList text) true), rest)
      | none => throw (c :: cs)
    | '-', '-' :: rest => return (none, dropLine rest)
    | '/', '*' :: rest => return (none, ← dropComment 1 ' ' rest)
    | '$', _ => return found (← readDollar cs)
    | _, _ =>
      if c.isDigit || c == '.' then return found (readNumber (c :: cs))
      else if isNameStart c then return found (readWord (c :: cs))
      else if Text.isBlank c then return (none, cs)
      else return found (readSign c cs)

/-- Reads tokens from a place on; `fuel` bounds the number of steps. -/
def readFrom : Nat → Position → List Char → Except Fault (List Located)
  | 0, _, _ => .ok []
  | _, _, [] => .ok []
  | fuel + 1, position, c :: cs =>
    let reached (rest : List Char) : Position :=
      position.after ((c :: cs).take (cs.length + 1 - rest.length))
    match readOne (c :: cs) with
    | .error rest => .error (.malformed "malformed token" (some (reached rest)))
    | .ok (token, rest) => do
      let more ← readFrom fuel (reached rest) rest
      return (token.map (⟨·, position⟩)).toList ++ more

end Lexer

/-- The tokens of SQL text. -/
def tokens (cs : List Char) : Except Fault (List Located) :=
  Lexer.readFrom (cs.length + 1) {} cs

end AnalyticQuery.Sql
