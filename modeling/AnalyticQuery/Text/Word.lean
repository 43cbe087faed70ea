import AnalyticQuery.Text.Digit
import AnalyticQuery.Text.Letter

/-!
# Word characters

The characters between two word boundaries: letters, marks, digits, connectors and joiners.
-/

namespace AnalyticQuery.Text

/-- The code points of marks, connectors and joiners, which stand in words beside letters and
digits. -/
def joinerRanges : List (Nat × Nat) :=
  rangesFrom 0 [95, 1, 672, 69, 1, 29, 288, 7, 263, 31, 168, 1, 134, 2, 9, 3, 83, 11, 160, 9, 9, 1,
    26, 2, 19, 1, 43, 3, 60, 8, 42, 10, 12, 2, 8, 6, 76, 1, 16, 1, 3, 4, 103, 1, 16, 1, 48, 1, 61,
    1, 16, 1, 110, 1, 16, 1, 47, 3, 60, 1, 16, 1, 7, 1, 119, 1, 110, 1, 16, 1, 110, 1, 16, 1, 109,
    2, 16, 1, 124, 1, 124, 6, 1, 1, 107, 1, 13, 5, 1, 1, 73, 2, 27, 1, 1, 1, 1, 1, 4, 2, 68, 1, 1,
    2, 62, 1, 112, 1, 1, 2, 802, 3, 948, 2, 30, 1, 127, 2, 19, 11, 9, 1, 45, 3, 1, 1, 297, 3, 292,
    1, 20, 8, 2, 1, 48, 15, 2, 11, 104, 1, 15, 1, 38, 9, 54, 2, 58, 1, 11, 2, 67, 1, 152, 3, 1, 21,
    4, 1, 6, 1, 2, 3, 198, 19, 34, 11, 524, 2, 49, 2, 19, 1, 123, 33, 3070, 3, 141, 1, 682, 6, 105,
    2, 30164, 4, 9, 2, 114, 2, 276, 1, 37, 1, 151, 1, 27, 18, 57, 3, 37, 1, 95, 1, 12, 1, 254, 1, 1,
    1, 52, 1, 245, 2, 21010, 16, 16, 16, 3, 2, 24, 3, 239, 1, 701, 1, 226, 1, 1879, 3, 4, 1, 165, 2,
    643, 4, 399, 3, 70, 11, 49, 4, 192, 1, 41, 1, 14, 1, 57, 2, 120, 2, 62, 1, 76, 1, 8, 4, 104, 2,
    178, 2, 80, 2, 16, 1, 24, 7, 3, 5, 89, 3, 1, 1, 14, 2, 95, 1, 3, 1, 23, 1, 99, 2, 251, 2, 126,
    1, 118, 2, 115, 1, 269, 2, 258, 2, 4, 1, 156, 1, 82, 2, 18, 1, 80, 2, 421, 1, 258, 1, 1, 2, 81,
    1, 425, 2, 23, 1, 5349, 1, 6, 15, 11481, 1, 2496, 5, 59, 7, 1197, 1, 19640, 1, 4706, 46, 2, 23,
    542, 5, 3, 6, 8, 8, 2, 7, 30, 4, 148, 3, 1979, 55, 4, 50, 8, 1, 14, 1, 22, 5, 1, 15, 1664, 7,
    375, 1, 61, 4, 508, 4, 254, 2, 736, 7, 109, 3, 1, 3, 792501, 240]

/-- The code points of the letters that Unicode 17 added. Word boundaries are drawn without them. -/
def newLetterRanges : List (Nat × Nat) :=
  rangesFrom 0 [2191, 1, 972, 1, 127, 1, 39665, 2, 2, 1, 1, 1, 28, 1, 24910, 26, 1387, 3, 50, 2,
    3172, 8, 584, 44, 20676, 25, 2, 25, 286, 5, 6145, 8, 1289, 22, 97, 115, 22733, 31, 1, 22, 8, 2,
    53306, 6, 5986, 12, 21762, 4298]

/-- Whether a character belongs to a word. -/
def isWordChar (c : Char) : Bool :=
  (isLetter c && !inRanges newLetterRanges c) || isDecimalDigit c || inRanges joinerRanges c

/-- Whether a character is a letter or a numeral. -/
def isAlphanumeric (c : Char) : Bool :=
  isLetter c || isNumeral c

end AnalyticQuery.Text
