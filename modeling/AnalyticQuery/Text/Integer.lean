/-!
# Integers in text

Reading the integers of 64-bit words: a sign, then decimal digits.
-/

namespace AnalyticQuery.Text

/-- The natural number that a text of one or more decimal digits writes. -/
def natOfDigits? (cs : List Char) : Option Nat :=
  if cs.isEmpty || !cs.all Char.isDigit then none
  else some (cs.foldl (fun n c => n * 10 + (c.toNat - '0'.toNat)) 0)

/-- Whether a signed 64-bit word holds an integer. -/
def inInt64 (n : Int) : Bool := -(1 <<< 63 : Nat) ≤ n && n < (1 <<< 63 : Nat)

/-- The integer of a signed 64-bit word that a text writes, with or without a sign. -/
def int64OfChars? (cs : List Char) : Option Int :=
  let value : Option Int := match cs with
    | '-' :: digits => (natOfDigits? digits).map fun n => -(n : Int)
    | '+' :: digits => (natOfDigits? digits).map fun n => (n : Int)
    | digits => (natOfDigits? digits).map fun n => (n : Int)
  value.filter inInt64

/-- The integer of an unsigned 64-bit word that a text writes, with or without a plus sign. -/
def nat64OfChars? (cs : List Char) : Option Nat :=
  let value := match cs with
    | '+' :: digits => natOfDigits? digits
    | digits => natOfDigits? digits
  value.filter (· < 1 <<< 64)

end AnalyticQuery.Text
