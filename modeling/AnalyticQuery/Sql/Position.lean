import AnalyticQuery.Text.Digit
import AnalyticQuery.Text.Integer

/-!
# Places in a text

A place is a line and a column. It is written as `Line: 1, Column: 2`, and can be found again in a
longer text.
-/

namespace AnalyticQuery.Sql

/-- A place in a text. Lines and columns are counted from one. -/
structure Position where
  line : Nat := 1
  column : Nat := 1
  deriving DecidableEq, Repr

namespace Position

/-- The place after a character. -/
def next (p : Position) (c : Char) : Position :=
  if c == '\n' then ⟨p.line + 1, 1⟩ else ⟨p.line, p.column + 1⟩

/-- The place after some characters. -/
def after (p : Position) (cs : List Char) : Position := cs.foldl next p

/-- The number of characters before a place: those of the lines before with their ends, then the
columns. A place on a line that the text does not have lies behind the end of the last line. -/
def offset (p : Position) (cs : List Char) : Nat :=
  let rec fromLine : Nat → List (List Char) → Nat
    | _, [] => 0
    | number, line :: rest =>
      if number == p.line then p.column - 1 else line.length + 1 + fromLine (number + 1) rest
  fromLine 1 (cs.splitOn '\n')

/-- The text of a place. -/
def text (p : Position) : String := s!"Line: {p.line}, Column: {p.column}"

/-- The digits of the line and of the column of a place that opens a text. The second colon can be
missing. -/
def openingDigits? (cs : List Char) : Option (List Char × List Char) := do
  let cs ← "Line: ".toList.isPrefixOf? cs
  let line := cs.takeWhile Text.isDecimalDigit
  let cs ← ", Column".toList.isPrefixOf? (cs.drop line.length)
  let cs ← " ".toList.isPrefixOf? ((":".toList.isPrefixOf? cs).getD cs)
  let column := cs.takeWhile Text.isDecimalDigit
  if line.isEmpty || column.isEmpty then none else some (line, column)

/-- The digits of the line and of the column of the first place in a text. -/
def digits? : List Char → Option (List Char × List Char)
  | [] => none
  | c :: cs => (openingDigits? (c :: cs)).or (digits? cs)

/-- The first place in a text, if its line and its column fit in words of 64 bits. -/
def ofText? (s : String) : Option Position := do
  let (line, column) ← digits? s.toList
  return ⟨← Text.nat64OfChars? line, ← Text.nat64OfChars? column⟩

end Position

end AnalyticQuery.Sql
