import ProbCore.Decimal.Binary

/-! The shortest decimal that reads back as a given double, and the texts made of it. -/

namespace ProbCore.Decimal

/-- The power of ten at or below the positive fraction `numerator / denominator`. -/
def decimalExponent (numerator denominator : Nat) : Int :=
  -- 1233 / 4096 is just below the decimal logarithm of two.
  let guess : Int := ((numerator.log2 : Int) - denominator.log2 - 1) * 1233 / 4096 - 1
  climb 4 guess
where
  reaches (e : Int) : Bool :=
    if 0 ≤ e then denominator * pow10 e.toNat ≤ numerator
    else denominator ≤ numerator * pow10 (-e).toNat
  climb : Nat → Int → Int
    | 0, e => e
    | fuel + 1, e => if reaches (e + 1) then climb fuel (e + 1) else e

/-- The decimal `digits * 10 ^ exponent`. -/
structure Scaled where
  digits : Nat
  exponent : Int
  deriving Repr, DecidableEq

/-- A precision: the bits of a full mantissa and the least exponent. -/
structure Precision where
  bits : Nat
  leastExponent : Int

def Precision.double : Precision := ⟨53, -1074⟩

def Precision.single : Precision := ⟨24, -149⟩

/-- The reals that round to a positive float, in units of a quarter of its last place: the
upper end is half a place away, the lower end a quarter when the float is a power of two.
The ends belong to it when the mantissa is even. -/
def withinRounding (p : Precision) (b : Binary) (d : Scaled) : Bool :=
  let low := if b.mantissa == pow2 (p.bits - 1) && b.exponent > p.leastExponent then 4 * b.mantissa - 1
    else 4 * b.mantissa - 2
  let high := 4 * b.mantissa + 2
  let binary := b.exponent - 2
  -- Both sides as integers: multiply away the negative powers.
  let scaled := d.digits * pow10 d.exponent.toNat * pow2 (-binary).toNat
  let unit := pow2 binary.toNat * pow10 (-d.exponent).toNat
  if b.mantissa % 2 == 0 then low * unit ≤ scaled && scaled ≤ high * unit
  else low * unit < scaled && scaled < high * unit

/-- Of the two grid neighbours of the float, the one that reads back, the nearer if both do. -/
def onGrid? (p : Precision) (b : Binary) (exponent : Int) : Option Scaled :=
  let (numerator, denominator) := b.ratio
  let top := numerator * pow10 (-exponent).toNat
  let bottom := denominator * pow10 exponent.toNat
  let below : Scaled := ⟨top / bottom, exponent⟩
  let above : Scaled := ⟨top / bottom + 1, exponent⟩
  let rest := 2 * (top % bottom)
  match below.digits != 0 && withinRounding p b below, withinRounding p b above with
  | true, false => some below
  | false, true => some above
  | false, false => none
  | true, true =>
    if rest < bottom || (rest == bottom && below.digits % 2 == 0) then some below
    else some above

/-- The fewest digits that read back, the nearest of those; for a positive float. -/
def shortestIn (p : Precision) (b : Binary) : Scaled :=
  let (numerator, denominator) := b.ratio
  let top := decimalExponent numerator denominator
  search top 16 0
where
  search (top : Int) : Nat → Nat → Scaled
    | 0, places => (onGrid? p b (top - places)).getD ⟨b.mantissa, b.exponent⟩
    | fuel + 1, places =>
      match onGrid? p b (top - places) with
      | some d => d
      | none => search top fuel (places + 1)

def shortest : Binary → Scaled := shortestIn .double

/-- The fewest digits that read back in single precision, for a double that single precision
holds. -/
def shortestSingle (b : Binary) : Scaled :=
  -- Move the mantissa to the 24 bits, or fewer at the subnormal grid, that single precision has.
  let size : Int := b.mantissa.log2 + b.exponent
  let exponent := max (size - 23) (-149)
  let mantissa :=
    if b.exponent ≤ exponent then b.mantissa / pow2 (exponent - b.exponent).toNat
    else b.mantissa * pow2 (b.exponent - exponent).toNat
  shortestIn .single { b with mantissa, exponent }

/-- How a double is written in full: positional for exponents in a range, else with a
power of ten. -/
structure FloatFormat where
  leastPositional : Int
  mostPositional : Int
  nan : String
  infinity : String

/-- Exponents from -4 to 15 are positional, and infinity is `inf`. -/
def plainFormat : FloatFormat := ⟨-4, 15, "nan", "inf"⟩

/-- The same numbers under the names that data files give to NaN and infinity. -/
def dataFormat : FloatFormat := ⟨-4, 15, "NaN", "Infinity"⟩

/-- An exponent with its sign and at least two digits. -/
def exponentText (e : Int) : String :=
  let digits := toString e.natAbs
  (if e < 0 then "-" else "+") ++ (if digits.length < 2 then "0" ++ digits else digits)

def dropZeros : List Char → List Char
  | '0' :: rest => dropZeros rest
  | digits => digits

def positional (digits : List Char) (point : Int) : String :=
  if point ≤ 0 then
    "0." ++ String.ofList (List.replicate (-point).toNat '0' ++ digits)
  else
    let whole := digits.take point.toNat
    let fraction := digits.drop point.toNat
    let whole := whole ++ List.replicate (point.toNat - whole.length) '0'
    String.ofList whole ++ "." ++ (if fraction.isEmpty then "0" else String.ofList fraction)

def withPower (digits : List Char) (e : Int) : String :=
  let head := String.ofList (digits.take 1)
  let tail := digits.drop 1
  head ++ (if tail.isEmpty then "" else "." ++ String.ofList tail) ++ "e" ++ exponentText e

/-- The text of a decimal with its sign; zero is written as such. -/
def decimalText (format : FloatFormat) (negative zero : Bool) (d : Scaled) : String :=
  let sign := if negative then "-" else ""
  if zero then sign ++ "0.0" else
    let written := (toString d.digits).toList
    let digits := (dropZeros written.reverse).reverse
    let e := d.exponent + written.length - 1
    if format.leastPositional ≤ e && e ≤ format.mostPositional then
      sign ++ positional digits (e + 1)
    else sign ++ withPower digits e

/-- The shortest text that reads back as the double. -/
def floatText (format : FloatFormat) (x : Float) : String :=
  match Binary.ofFloat? x with
  | none =>
    if x.isNaN then format.nan
    else if x > 0 then format.infinity else "-" ++ format.infinity
  | some b => decimalText format b.negative (b.mantissa == 0) (shortest b)

end ProbCore.Decimal
