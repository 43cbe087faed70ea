import AnalyticQuery.Decimal.Basic

/-!
# Numbers of the data format

A number is an integer of a signed or unsigned 64-bit word, or a floating-point number. Reading
keeps as many leading digits as an unsigned word holds and scales them by a power of ten with one
rounded operation, so long digit strings may differ from the nearest number in the last place.
-/

namespace AnalyticQuery

/-- The integers that a signed or an unsigned 64-bit word holds. -/
def InWord (n : Int) : Prop := -(1 <<< 63 : Nat) ≤ n ∧ n < (1 <<< 64 : Nat)

instance (n : Int) : Decidable (InWord n) := by
  unfold InWord
  infer_instance

/-- A number of the data format. -/
inductive Number where
  | integer (value : Int) (inWord : InWord value)
  | real (value : Binary64)
  deriving DecidableEq

namespace Number

instance : Inhabited Number := ⟨.integer 0 (by decide)⟩

/-- An integer as a number: itself where a word holds it, otherwise the nearest real number. -/
def ofInt (n : Int) : Number :=
  if h : InWord n then .integer n h
  else .real ((Binary64.ofRatio (n < 0) n.natAbs 1).getD .zero)

/-- A natural number as a number. -/
def ofNat (n : Nat) : Number := ofInt n

/-- Equality of values within each kind: an integer never equals a real number. -/
def sameValue : Number → Number → Bool
  | .integer m _, .integer n _ => m == n
  | .real x, .real y => x.sameValue y
  | _, _ => false

/-- The integer of a signed 64-bit word that a number is, if any. -/
def int64? : Number → Option Int
  | .integer n _ => if n < (1 <<< 63 : Nat) then some n else none
  | .real _ => none

/-- The integer of an unsigned 64-bit word that a number is, if any. -/
def nat64? : Number → Option Nat
  | .integer n _ => if 0 ≤ n then some n.toNat else none
  | .real _ => none

/-- The nearest floating-point number. -/
def toBinary64 : Number → Binary64
  | .integer n _ => (Binary64.ofRatio (n < 0) n.natAbs 1).getD .zero
  | .real x => x

/-- The text of a number: `7`, `-3`, `1.0`, `1e+16`. -/
def text : Number → String
  | .integer n _ => toString n
  | .real x => x.dataText

/-! ## Reading -/

/-- The value of a decimal digit. -/
def digitValue (c : Char) : Nat := c.toNat - '0'.toNat

/-- Appends digits to a significand as long as an unsigned word holds it, and returns the digits
left over. -/
def absorb : Nat → List Char → Nat × List Char
  | significand, [] => (significand, [])
  | significand, c :: cs =>
    let next := significand * 10 + digitValue c
    if next < 1 <<< 64 then absorb next cs else (significand, c :: cs)

/-- The natural number that decimal digits write. -/
def natOfDigits (ds : List Char) : Nat :=
  ds.foldl (fun n c => n * 10 + digitValue c) 0

/-- The floating-point number nearest to a power of ten up to `10 ^ 308`. -/
def powerOfTen (n : Nat) : Binary64 := (Binary64.ofNat? (Nat.pow 10 n)).getD .zero

/-- A number divided by `10 ^ 308` a number of times, until it is zero. -/
def divideDown : Nat → Binary64 → Binary64
  | 0, x => x
  | steps + 1, x =>
    if x.isZero then x else divideDown steps ((x.div (powerOfTen 308)).getD .zero)

/-- A significand times a power of ten: one rounded product or quotient, after divisions by
`10 ^ 308` where the exponent is below -308. There is none beyond the largest number. -/
def scale (significand : Nat) (exponent : Int) : Option Binary64 := do
  let x ← Binary64.ofNat? significand
  if 0 ≤ exponent then
    if exponent ≤ 308 then x.mul (powerOfTen exponent.toNat)
    else if x.isZero then some x
    else none
  else
    let places := (-exponent).toNat
    let steps := (places - 1) / 308
    (divideDown steps x).div (powerOfTen (places - 308 * steps))

/-- The real number of a sign, a significand and a power of ten. -/
def realOfParts (negative : Bool) (significand : Nat) (exponent : Int) : Option Number :=
  (scale significand exponent).map fun x => .real (if negative then x.neg else x)

/-- The parts of a number's text. -/
structure Parts where
  /-- Whether the sign is minus. -/
  negative : Bool
  /-- The digits before the point. -/
  whole : List Char
  /-- The digits after the point, if there is a point. -/
  fraction : Option (List Char)
  /-- The exponent's sign and digits, if there is an exponent. -/
  power : Option (Bool × List Char)

/-- The longest run of decimal digits at the front, and the rest. -/
def spanDigits (cs : List Char) : List Char × List Char := cs.span Char.isDigit

/-- Reads the digits before the point: a zero stands alone. -/
def wholePart? (cs : List Char) : Option (List Char × List Char) :=
  match spanDigits cs with
  | ([], _) => none
  | ('0' :: _ :: _, _) => none
  | (whole, rest) => some (whole, rest)

/-- Reads the digits after a point, if a point stands in front; one digit at least follows it. -/
def fractionPart? : List Char → Option (Option (List Char) × List Char)
  | '.' :: cs =>
    match spanDigits cs with
    | ([], _) => none
    | (fraction, rest) => some (some fraction, rest)
  | cs => some (none, cs)

/-- Reads the digits of an exponent; one at least stands in front. -/
def powerDigits? (negative : Bool) (cs : List Char) :
    Option (Option (Bool × List Char) × List Char) :=
  match spanDigits cs with
  | ([], _) => none
  | (digits, rest) => some (some (negative, digits), rest)

/-- Reads an exponent, if its mark stands in front. -/
def powerPart? : List Char → Option (Option (Bool × List Char) × List Char)
  | c :: cs =>
    if c == 'e' || c == 'E' then
      match cs with
      | '+' :: cs => powerDigits? false cs
      | '-' :: cs => powerDigits? true cs
      | cs => powerDigits? false cs
    else some (none, c :: cs)
  | [] => some (none, [])

/-- Reads the parts of a number from the front of a text. -/
def parts? (cs : List Char) : Option (Parts × List Char) := do
  let (negative, cs) := match cs with
    | '-' :: cs => (true, cs)
    | cs => (false, cs)
  let (whole, cs) ← wholePart? cs
  let (fraction, cs) ← fractionPart? cs
  let (power, cs) ← powerPart? cs
  return (⟨negative, whole, fraction, power⟩, cs)

/-- The number that the parts write. A number without point and exponent is an integer if a word
holds it, save for the negative zero. -/
def ofParts? (p : Parts) : Option Number :=
  let (significand, dropped) := absorb 0 p.whole
  match p.fraction, p.power with
  | none, none =>
    if dropped.isEmpty then
      let n : Int := if p.negative then -(significand : Int) else significand
      if h : InWord n ∧ ¬(p.negative = true ∧ significand = 0) then some (.integer n h.1)
      else realOfParts p.negative significand 0
    else realOfParts p.negative significand dropped.length
  | fraction, power =>
    let fraction := fraction.getD []
    let (significand, unused) := absorb significand fraction
    let exponent : Int := dropped.length - (fraction.length - unused.length : Nat)
    match power with
    | none => realOfParts p.negative significand exponent
    | some (down, digits) =>
      let amount := natOfDigits digits
      if amount < 1 <<< 31 then
        realOfParts p.negative significand (if down then exponent - amount else exponent + amount)
      else if significand = 0 ∨ down then realOfParts p.negative 0 0
      else none

/-- Reads a number from the front of a text. -/
def read? (cs : List Char) : Option (Number × List Char) := do
  let (parts, rest) ← parts? cs
  let n ← ofParts? parts
  return (n, rest)

/-- The number that a whole text writes, if it writes one. -/
def ofText? (s : String) : Option Number :=
  match read? s.toList with
  | some (n, []) => some n
  | _ => none

end Number

end AnalyticQuery
