import AnalyticQuery.Short.Reader
import AnalyticQuery.Text.Integer

/-!
# Short expressions in SQL text

SQL text may hold short expressions. Each is cut out and a placeholder `$k` put in its place, in
double quotes where a relation is expected. Quoted text and comments are left alone, and offsets
into the new text are mapped back.
-/

namespace AnalyticQuery.Sql

/-- A short expression that was cut out. -/
structure Replacement where
  /-- Where the placeholder starts in the new text. -/
  start : Nat
  /-- The length of the placeholder. -/
  length : Nat
  /-- Where the short expression starts in the source. -/
  sourceStart : Nat
  /-- The length of the short expression. -/
  sourceLength : Nat
  deriving DecidableEq, Repr

/-- SQL text with placeholders for its short expressions. -/
structure Extracted where
  /-- The new text. -/
  text : List Char
  /-- The short expressions in order; the first has the placeholder `$1`. -/
  shorts : List Short
  /-- What was replaced, in order. -/
  replacements : List Replacement

namespace Extracted

/-- The short expression behind a placeholder. -/
def short? (extracted : Extracted) (placeholder : String) : Option Short :=
  match placeholder.toList with
  | '$' :: digits =>
    match Text.nat64OfChars? digits with
    | some (k + 1) => extracted.shorts[k]?
    | _ => none
  | _ => none

/-- The offset in the source of an offset in the new text, from some replacements on; `shift` is
what the replacements before changed. -/
def sourceOffsetFrom (offset : Nat) : Int → List Replacement → Nat
  | shift, [] => ((offset : Int) + shift).toNat
  | shift, r :: rest =>
    if offset < r.start then ((offset : Int) + shift).toNat
    else if offset < r.start + r.length then r.sourceStart
    else sourceOffsetFrom offset (shift + r.sourceLength - r.length) rest

/-- The offset in the source of an offset in the new text; inside a placeholder it is the start of
the short expression. -/
def sourceOffset (extracted : Extracted) (offset : Nat) : Nat :=
  sourceOffsetFrom offset 0 extracted.replacements

end Extracted

/-- The characters up to the end of the first occurrence of a text, and those after it. Without an
occurrence they are all. -/
def spanPast (terminator : List Char) : List Char → List Char × List Char
  | [] => ([], [])
  | c :: cs =>
    if terminator.isPrefixOf (c :: cs) then
      (terminator, (c :: cs).drop terminator.length)
    else
      let (before, after) := spanPast terminator cs
      (c :: before, after)

/-- Whether characters, the last first, end in the word `from` or `join` and blanks. -/
def expectsRelation (written : List Char) : Bool :=
  let word := ((written.dropWhile Text.isBlank).takeWhile Char.isAlpha).reverse
  let word := (String.ofList word).toLower
  word == "from" || word == "join"

/-- Where the scan of SQL text stands. -/
structure ScanState where
  /-- The number of characters read. -/
  position : Nat := 0
  /-- The characters written, the last first. -/
  written : List Char := []
  /-- The short expressions found, the last first. -/
  shorts : List Short := []
  /-- The replacements made, the last first. -/
  replacements : List Replacement := []

namespace ScanState

/-- Copies characters. -/
def copy (state : ScanState) (cs : List Char) : ScanState :=
  { state with
    position := state.position + cs.length
    written := cs.reverse ++ state.written }

/-- Puts a placeholder in place of a short expression of a length. -/
def replace (state : ScanState) (s : Short) (length : Nat) : ScanState :=
  let name := '$' :: (toString (state.shorts.length + 1)).toList
  let placeholder := if expectsRelation state.written then '"' :: name ++ ['"'] else name
  { position := state.position + length
    written := placeholder.reverse ++ state.written
    shorts := s :: state.shorts
    replacements :=
      ⟨state.written.length, placeholder.length, state.position, length⟩ :: state.replacements }

/-- The text that was written. -/
def finish (state : ScanState) : Extracted :=
  ⟨state.written.reverse, state.shorts.reverse, state.replacements.reverse⟩

end ScanState

/-- Scans SQL text; `fuel` bounds the number of steps. -/
def scan : Nat → ScanState → List Char → Result Extracted
  | 0, state, _ => .ok state.finish
  | _, state, [] => .ok state.finish
  | fuel + 1, state, c :: cs =>
    let copyPast (opening terminator rest : List Char) : Result Extracted :=
      let (inside, after) := spanPast terminator rest
      scan fuel (state.copy (opening ++ inside)) after
    if c == '\'' || c == '"' then copyPast [c] [c] cs
    else
      match c, cs with
      | '-', '-' :: rest => copyPast ['-', '-'] ['\n'] rest
      | '/', '*' :: rest => copyPast ['/', '*'] ['*', '/'] rest
      | '$', '$' :: rest => copyPast ['$', '$'] ['$', '$'] rest
      | _, _ =>
        if c == '$' && cs.head?.any Char.isDigit then
          .error (.unsupportedSql "positional parameters ($n) are not supported"
            (some state.position))
        else if Short.startsAt (c :: cs) then
          match Short.ofFront (c :: cs) with
          | .error e => .error (e.shift state.position)
          | .ok (s, length) => scan fuel (state.replace s length) ((c :: cs).drop length)
        else scan fuel (state.copy [c]) cs

/-- Puts placeholders in place of the short expressions in SQL text. Numbered parameters are
refused. -/
def extract (sql : String) : Result Extracted :=
  let cs := sql.toList
  scan (cs.length + 1) {} cs

end AnalyticQuery.Sql
