/-! Doubles as exact binary fractions. Everything that prints, reads or compares a
double exactly works on the integers found here, never on rounded quotients. -/

namespace ProbCore.Decimal

def pow2 (n : Nat) : Nat := Nat.pow 2 n

def pow10 (n : Nat) : Nat := Nat.pow 10 n

/-- The finite double `(-1)^negative * mantissa * 2^exponent`. -/
structure Binary where
  negative : Bool
  mantissa : Nat
  exponent : Int
  deriving Repr, DecidableEq

/-- The double that a word stands for, taken apart; `none` for the infinities and NaN. -/
def Binary.ofBits? (bits : Nat) : Option Binary :=
  let negative := bits / pow2 63 == 1
  let biased : Nat := bits / pow2 52 % pow2 11
  let fraction : Nat := bits % pow2 52
  if biased == 2047 then none
  else if biased == 0 then some ⟨negative, fraction, -1074⟩
  else some ⟨negative, fraction + pow2 52, (biased : Int) - 1075⟩

def Binary.ofFloat? (x : Float) : Option Binary := ofBits? x.toBits.toNat

/-- The word of a double whose mantissa is below `2^53`, and at least `2^52` unless the exponent is
the least one. A mantissa of `2^53` carries into the exponent. -/
def Binary.bits (b : Binary) : Nat :=
  (if b.negative then pow2 63 else 0) + (b.exponent + 1074).toNat * pow2 52 + b.mantissa

def Binary.toFloat (b : Binary) : Float := Float.ofBits (UInt64.ofNat b.bits)

/-- The fraction `numerator / denominator` of the magnitude. -/
def Binary.ratio (b : Binary) : Nat × Nat :=
  if 0 ≤ b.exponent then (b.mantissa * pow2 b.exponent.toNat, 1)
  else (b.mantissa, pow2 (-b.exponent).toNat)

/-- A quotient rounded to the nearest natural number, halves to the even one. -/
def roundQuotient (numerator denominator : Nat) : Nat :=
  let floor := numerator / denominator
  let rest := 2 * (numerator % denominator)
  if rest < denominator then floor
  else if denominator < rest then floor + 1
  else if floor % 2 == 0 then floor else floor + 1

/-- What single precision keeps of the mantissa: 24 bits, or what lies on the grid of its least
numbers, halves to the even neighbour. -/
def Binary.keptSingle (b : Binary) : Nat :=
  let lowest : Int := max (b.mantissa.log2 + b.exponent - 23) (-149)
  let unit := pow2 (lowest - b.exponent).toNat
  roundQuotient b.mantissa unit * unit

/-- An integer compared with a double; `none` against NaN. -/
def compareInt? (n : Int) (x : Float) : Option Ordering :=
  match Binary.ofFloat? x with
  | some b =>
    let (numerator, denominator) := b.ratio
    let signed : Int := if b.negative then -(numerator : Int) else numerator
    some (compare (n * denominator) signed)
  | none => if x.isNaN then none else if x > 0 then some .lt else some .gt

/-- The integer part of a double, toward zero; `none` for the infinities and NaN. -/
def truncate? (x : Float) : Option Int :=
  (Binary.ofFloat? x).map fun b =>
    let (numerator, denominator) := b.ratio
    let whole : Int := numerator / denominator
    if b.negative then -whole else whole

/-- The greatest integer that is at most the double; `none` for the infinities and NaN. -/
def floor? (x : Float) : Option Int :=
  (Binary.ofFloat? x).map fun b =>
    let (numerator, denominator) := b.ratio
    let signed : Int := if b.negative then -(numerator : Int) else numerator
    signed.fdiv denominator

/-- A quotient in units of a power of two, rounded to the nearest one. -/
def unitsOf (numerator denominator : Nat) (scale : Int) : Nat :=
  if 0 ≤ scale then roundQuotient numerator (denominator * pow2 scale.toNat)
  else roundQuotient (numerator * pow2 (-scale).toNat) denominator

/-- A positive quotient of natural numbers rounded to 53 bits, or to the subnormal grid. The scale
puts it between 2^52 and 2^54 units, or at the least exponent. -/
def nearestBinary (numerator denominator : Nat) : Binary :=
  let size : Int := (numerator.log2 : Int) - denominator.log2
  let scale : Int := max (size - 53) (-1074)
  let scale := if unitsOf numerator denominator scale ≥ pow2 53 then scale + 1 else scale
  ⟨false, unitsOf numerator denominator scale, scale⟩

/-- The double nearest to a quotient of natural numbers, halves to the even one; infinite
when the quotient rounds past the largest double. -/
def nearestQuotient (numerator denominator : Nat) : Float :=
  if numerator == 0 then 0
  else
    let nearest := nearestBinary numerator denominator
    if nearest.exponent > 971 then 1 / 0 else nearest.toFloat

/-- The double nearest to an integer; infinite for integers past the largest double. -/
def nearestInt (n : Int) : Float :=
  let magnitude := nearestQuotient n.natAbs 1
  if n < 0 then -magnitude else magnitude

end ProbCore.Decimal
