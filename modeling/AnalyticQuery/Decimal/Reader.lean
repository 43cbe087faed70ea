import AnalyticQuery.Decimal.Basic

/-!
# Reading decimal numbers

A decimal text has digits with at most one point among them and an optional exponent. It is read as
the nearest floating-point number.
-/

namespace AnalyticQuery.Decimal

/-- The value of decimal digits. -/
def digitsValue (ds : List Char) : Nat := ds.foldl (fun n c => n * 10 + (c.toNat - '0'.toNat)) 0

/-- Reads an exponent up to the end of the text. -/
def exponent? : List Char → Option Int
  | [] => some 0
  | mark :: cs =>
    let (negative, ds) := match cs with
      | '-' :: ds => (true, ds)
      | '+' :: ds => (false, ds)
      | ds => (false, ds)
    if (mark == 'e' || mark == 'E') && !ds.isEmpty && ds.all Char.isDigit then
      some (if negative then -(digitsValue ds : Int) else digitsValue ds)
    else none

/-- The decimal number that a text writes. -/
def ofChars? (cs : List Char) : Option Decimal := do
  let (negative, cs) := match cs with
    | '-' :: cs => (true, cs)
    | cs => (false, cs)
  let (whole, rest) := cs.span Char.isDigit
  let (fraction, rest) := match rest with
    | '.' :: rest => rest.span Char.isDigit
    | rest => ([], rest)
  if whole.isEmpty && fraction.isEmpty then none
  let exponent ← exponent? rest
  return ⟨negative, digitsValue (whole ++ fraction), exponent - fraction.length⟩

/-- The floating-point number nearest to a decimal number. Numbers far beyond the largest have none,
and numbers far below the smallest are zero. -/
def nearest? (d : Decimal) : Option Binary64 :=
  let magnitude : Int := d.exponent + (digitText d.digits).length
  if d.digits == 0 || magnitude < -400 then toBinary64 ⟨d.negative, 0, 0⟩
  else if 400 < magnitude then none
  else d.toBinary64

end AnalyticQuery.Decimal
