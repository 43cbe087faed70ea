/-!
# Binary floating-point numbers

A finite number of 53 significant bits is a sign and a pair `significand · 2 ^ exponent`, named by
exactly one canonical pair. Arithmetic is exact on ratios of natural numbers and rounded once, to
the nearest number, a tie going to the even significand.
-/

namespace AnalyticQuery

/-- The pairs that name a magnitude: 53 bits, and the leading one set unless the exponent is
least. -/
def Binary64.Canonical (significand : Nat) (exponent : Int) : Prop :=
  significand < 1 <<< 53 ∧ -1074 ≤ exponent ∧ exponent ≤ 971 ∧
    (exponent = -1074 ∨ 1 <<< 52 ≤ significand)

instance (m : Nat) (e : Int) : Decidable (Binary64.Canonical m e) := by
  unfold Binary64.Canonical
  infer_instance

/-- A finite floating-point number; the two zeros differ in their sign. -/
structure Binary64 where
  /-- Whether the sign is minus. -/
  negative : Bool
  /-- The integral significand. -/
  significand : Nat
  /-- The power of two that scales the significand. -/
  exponent : Int
  /-- The pair is the canonical one of its magnitude. -/
  canonical : Binary64.Canonical significand exponent
  deriving DecidableEq

namespace Binary64

/-- The positive zero. -/
def zero : Binary64 := ⟨false, 0, -1074, by decide⟩

instance : Inhabited Binary64 := ⟨zero⟩

/-- Whether a number is one of the two zeros. -/
def isZero (x : Binary64) : Bool := x.significand == 0

/-- Equality of values: the two zeros are equal. -/
def sameValue (x y : Binary64) : Bool := (x.isZero && y.isZero) || x == y

/-- The number with the other sign. -/
def neg (x : Binary64) : Binary64 := { x with negative := !x.negative }

/-- The numerator of a magnitude. -/
def num (x : Binary64) : Nat := x.significand <<< x.exponent.toNat

/-- The denominator of a magnitude, a power of two. -/
def den (x : Binary64) : Nat := 1 <<< (-x.exponent).toNat

/-- A ratio rounded to the nearest natural number, a tie going to the even one. -/
def roundDiv (num den : Nat) : Nat :=
  let quotient := num / den
  let twice := 2 * (num % den)
  if twice < den then quotient
  else if den < twice then quotient + 1
  else quotient + quotient % 2

/-- A ratio divided by a power of two, which may be negative. -/
def scaled (num den : Nat) (exponent : Int) : Nat × Nat :=
  (num <<< (-exponent).toNat, den <<< exponent.toNat)

/-- The power of two by which a positive ratio is divided to fall in `[2 ^ 52, 2 ^ 53)`. -/
def normalExponent (num den : Nat) : Int :=
  let exponent : Int := (num.log2 : Int) - den.log2 - 52
  let (n, d) := scaled num den exponent
  if n < d <<< 52 then exponent - 1 else exponent

/-- The number nearest to a ratio, or none where that is beyond the largest number. -/
def ofRatio (negative : Bool) (num den : Nat) : Option Binary64 :=
  if num = 0 then some { zero with negative }
  else
    let exponent := max (-1074) (normalExponent num den)
    let (n, d) := scaled num den exponent
    let rounded := roundDiv n d
    let (significand, exponent) :=
      if rounded = 1 <<< 53 then (1 <<< 52, exponent + 1) else (rounded, exponent)
    if h : Canonical significand exponent then some ⟨negative, significand, exponent, h⟩ else none

/-- The number nearest to a natural number. -/
def ofNat? (n : Nat) : Option Binary64 := ofRatio false n 1

/-- The rounded product, or none where it is beyond the largest number. -/
def mul (x y : Binary64) : Option Binary64 :=
  ofRatio (x.negative != y.negative) (x.num * y.num) (x.den * y.den)

/-- The rounded quotient by a number that is not zero. -/
def div (x y : Binary64) : Option Binary64 :=
  ofRatio (x.negative != y.negative) (x.num * y.den) (x.den * y.num)

end Binary64

end AnalyticQuery
