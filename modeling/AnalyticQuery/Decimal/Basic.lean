import AnalyticQuery.Decimal.Binary64

/-!
# Decimal numbers

A decimal number is a sign and a pair `digits · 10 ^ exponent`. The texts of a floating-point number
come from the shortest decimal number that rounds back to it.
-/

namespace AnalyticQuery

/-- A number in decimal notation. -/
structure Decimal where
  /-- Whether the sign is minus. -/
  negative : Bool
  /-- The digits, read as one natural number. -/
  digits : Nat
  /-- The power of ten that scales the digits. -/
  exponent : Int
  deriving DecidableEq, Repr

namespace Decimal

/-- The floating-point number nearest to a decimal number, if it is not beyond the largest one. -/
def toBinary64 (d : Decimal) : Option Binary64 :=
  Binary64.ofRatio d.negative (d.digits * Nat.pow 10 d.exponent.toNat)
    (Nat.pow 10 (-d.exponent).toNat)

/-- The same number without zeros at the end of its digits, looking at `fuel` digits at most. -/
def stripZeros : Nat → Decimal → Decimal
  | 0, d => d
  | fuel + 1, d =>
    if d.digits ≠ 0 ∧ d.digits % 10 = 0 then
      stripZeros fuel { d with digits := d.digits / 10, exponent := d.exponent + 1 }
    else d

/-- The decimal digits of a natural number as text. -/
def digitText (n : Nat) : List Char := Nat.toDigits 10 n

/-- The digits of a magnitude before and after the point, without a point where none is needed. -/
def positional (d : Decimal) : List Char × List Char :=
  let ds := digitText d.digits
  if 0 ≤ d.exponent then (ds ++ List.replicate d.exponent.toNat '0', [])
  else
    let places := (-d.exponent).toNat
    if places < ds.length then ds.splitAt (ds.length - places)
    else (['0'], List.replicate (places - ds.length) '0' ++ ds)

end Decimal

namespace Binary64

/-- The power of ten at or below a positive ratio, counted up from a first guess. -/
def decimalExponentFrom : Nat → Nat → Nat → Int → Int
  | 0, _, _, guess => guess
  | fuel + 1, num, den, guess =>
    if num * Nat.pow 10 (-(guess + 1)).toNat < den * Nat.pow 10 (guess + 1).toNat then guess
    else decimalExponentFrom fuel num den (guess + 1)

/-- The greatest power of ten that is at most a positive ratio. -/
def decimalExponent (num den : Nat) : Int :=
  let bits : Int := (num.log2 : Int) - den.log2
  decimalExponentFrom 4 num den (Int.fdiv ((bits - 1) * 30103) 100000 - 1)

/-- The reals that round to a magnitude, in quarters of a unit of its last place: the low end, the
value, the high end. -/
def roundingInterval (x : Binary64) : Nat × Nat × Nat :=
  let value := 4 * x.significand
  let below := if x.significand = 1 <<< 52 ∧ x.exponent ≠ -1074 then 1 else 2
  (value - below, value, value + 2)

/-- The decimal number of `count` digits that rounds to a magnitude, if there is one: of the two
neighbours of the value on the grid, the nearer. -/
def ofDigitCount? (x : Binary64) (magnitude : Int) (count : Nat) : Option Decimal :=
  let (low, value, high) := x.roundingInterval
  let grid := magnitude - count + 1
  -- All ends and neighbours over one denominator: `unit · step` is one step of the grid.
  let quarter := x.exponent - 2
  let scale := Nat.pow 10 (-grid).toNat <<< quarter.toNat
  let step := Nat.pow 10 grid.toNat <<< (-quarter).toNat
  let below := value * scale / step
  let inside (candidate : Nat) : Bool :=
    let point := candidate * step
    if x.significand % 2 = 0 then low * scale ≤ point && point ≤ high * scale
    else low * scale < point && point < high * scale
  let downGap := value * scale - below * step
  let upGap := (below + 1) * step - value * scale
  let pick (digits : Nat) : Option Decimal := some ⟨x.negative, digits, grid⟩
  match inside below, inside (below + 1) with
  | true, true =>
    if downGap < upGap then pick below
    else if upGap < downGap then pick (below + 1)
    else pick (if below % 2 = 0 then below else below + 1)
  | true, false => pick below
  | false, true => pick (below + 1)
  | false, false => none

/-- The decimal number of fewest digits that rounds to a number, and the nearest to it of those. -/
def shortest (x : Binary64) : Decimal :=
  if x.isZero then ⟨x.negative, 0, 0⟩
  else
    let magnitude := decimalExponent x.num x.den
    let found := (List.range 17).findSome? fun count => x.ofDigitCount? magnitude (count + 1)
    (found.getD ⟨x.negative, x.significand, 0⟩).stripZeros 20

/-- The digits of a number without an exponent and without a needless fraction: `1`, `-0`,
`0.0000001`. -/
def plainText (x : Binary64) : String :=
  let d := x.shortest
  let (whole, fraction) := d.positional
  let tail := if fraction.isEmpty then [] else '.' :: fraction
  String.ofList ((if d.negative then ['-'] else []) ++ whole ++ tail)

/-- The digits of a number as data: positional with a fraction where the decimal exponent is from
-5 to 15, otherwise one digit, the fraction and a signed exponent (`1.0`, `0.00001`, `1e+16`,
`1.5e-7`). -/
def dataText (x : Binary64) : String :=
  let d := x.shortest
  let sign := if d.negative then ['-'] else []
  let ds := Decimal.digitText d.digits
  let leading : Int := d.exponent + (ds.length - 1 : Nat)
  if d.digits = 0 then String.ofList (sign ++ ['0', '.', '0'])
  else if -5 ≤ leading ∧ leading ≤ 15 then
    let (whole, fraction) := d.positional
    String.ofList (sign ++ whole ++ '.' :: (if fraction.isEmpty then ['0'] else fraction))
  else
    let fraction := if ds.length ≤ 1 then [] else '.' :: ds.drop 1
    let mark := if 0 ≤ leading then ['e', '+'] else ['e', '-']
    String.ofList (sign ++ ds.take 1 ++ fraction ++ mark ++ Decimal.digitText leading.natAbs)

end Binary64

end AnalyticQuery
