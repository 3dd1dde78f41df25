import ProbCore.Decimal.Binary
import ProbCore.Text.Blank

/-! Numbers read from text: an optional sign, digits that single underscores may join, and
for a double a fraction, a power of ten or the name of a special value. -/

namespace ProbCore.Decimal

/-- The value of digits that may be joined by single underscores, and how many they are. -/
def digits? (cs : List Char) : Option (Nat × Nat) :=
  scan cs false 0 0
where
  /-- `joined` says that the character before was a digit. -/
  scan : List Char → Bool → Nat → Nat → Option (Nat × Nat)
    | [], joined, n, count => if joined then some (n, count) else none
    | c :: rest, joined, n, count =>
      if c.isDigit then scan rest true (10 * n + (c.toNat - 48)) (count + 1)
      else if c == '_' && joined then scan rest false n count
      else none

private def sign (cs : List Char) : Bool × List Char :=
  match cs with
  | '-' :: rest => (true, rest)
  | '+' :: rest => (false, rest)
  | _ => (false, cs)

/-- An integer in base ten. -/
def int? (text : String) : Option Int :=
  let (negative, body) := sign (Text.strip text.toList)
  (digits? body).map fun (n, _) => if negative then -(n : Int) else n

/-- `mantissa * 10 ^ exponent` as the nearest double. Exponents far outside the range of
doubles are answered without computing the power. -/
def nearestDecimal (mantissa : Nat) (exponent : Int) : Float :=
  if mantissa == 0 then 0
  else
    let size : Int := (toString mantissa).length + exponent
    if size > 400 then 1 / 0
    else if size < -400 then 0
    else if 0 ≤ exponent then nearestQuotient (mantissa * pow10 exponent.toNat) 1
    else nearestQuotient mantissa (pow10 (-exponent).toNat)

private def exponent? (cs : List Char) : Option Int :=
  let (negative, body) := sign cs
  (digits? body).map fun (n, _) => if negative then -(n : Int) else n

private def splitAt (stop : Char → Bool) (cs : List Char) : List Char × Option (List Char) :=
  match cs.span (fun c => !stop c) with
  | (before, []) => (before, none)
  | (before, _ :: after) => (before, some after)

private def unsigned? (cs : List Char) : Option Float :=
  let (body, power) := splitAt (fun c => c == 'e' || c == 'E') cs
  let (whole, fraction) := splitAt (· == '.') body
  let part := fun (cs : List Char) => if cs.isEmpty then some (0, 0) else digits? cs
  match part whole, part (fraction.getD []), power.map exponent? with
  | _, _, some none => none
  | some (n, before), some (f, after), e =>
    if before + after == 0 then none
    else some (nearestDecimal (n * pow10 after + f) ((e.getD none).getD 0 - after))
  | _, _, _ => none

/-- A double: a decimal number, or `inf`, `infinity` and `nan` in any case. -/
def float? (text : String) : Option Float :=
  let (negative, body) := sign (Text.strip text.toList)
  let magnitude :=
    match String.ofList (body.map Char.toLower) with
    | "inf" | "infinity" => some (1 / 0)
    | "nan" => some (0 / 0)
    | _ => unsigned? body
  magnitude.map fun x => if negative then -x else x

end ProbCore.Decimal
