import AnalyticQuery.Text.Blank

/-!
# Words

The runs of characters between blanks.
-/

namespace AnalyticQuery.Text

/-- Splits characters at blanks; `word` holds the characters of the current word, the last first. -/
def wordsFrom : List Char → List Char → List (List Char)
  | word, [] => if word.isEmpty then [] else [word.reverse]
  | word, c :: cs =>
    if isBlank c then
      if word.isEmpty then wordsFrom [] cs else word.reverse :: wordsFrom [] cs
    else wordsFrom (c :: word) cs

/-- The words of a text, in order. -/
def words (s : String) : List String := (wordsFrom [] s.toList).map String.ofList

/-- The words of a text with one space between them. -/
def singleSpaced (s : String) : String := " ".intercalate (words s)

end AnalyticQuery.Text
