import ProbCore.Decimal.Shortest

/-! Doubles written to a given number of decimal places, rounded from their exact value. -/

namespace ProbCore.Decimal

private def leftPad (width : Nat) (digits : String) : String :=
  String.ofList (List.replicate (width - digits.length) '0') ++ digits

private def withPoint (places : Nat) (units : Nat) : String :=
  let digits := leftPad (places + 1) (toString units)
  let whole := digits.length - places
  if places == 0 then digits
  else String.ofList (digits.toList.take whole) ++ "." ++ String.ofList (digits.toList.drop whole)

private def special (x : Float) : String :=
  if x.isNaN then "nan" else if x > 0 then "inf" else "-inf"

/-- Fixed point with `places` decimals. -/
def fixed (places : Nat) (x : Float) : String :=
  match Binary.ofFloat? x with
  | none => special x
  | some b =>
    let (numerator, denominator) := b.ratio
    (if b.negative then "-" else "")
      ++ withPoint places (roundQuotient (numerator * pow10 places) denominator)

/-- One digit, `places` decimals and a power of ten. -/
def scientific (places : Nat) (x : Float) : String :=
  match Binary.ofFloat? x with
  | none => special x
  | some b =>
    let sign := if b.negative then "-" else ""
    let (numerator, denominator) := b.ratio
    if numerator == 0 then sign ++ withPoint places 0 ++ "e+00" else
      let e := decimalExponent numerator denominator
      let shift := e - places
      let units := roundQuotient (numerator * pow10 (-shift).toNat) (denominator * pow10 shift.toNat)
      if units == pow10 (places + 1) then
        sign ++ withPoint places (pow10 places) ++ "e" ++ exponentText (e + 1)
      else sign ++ withPoint places units ++ "e" ++ exponentText e

end ProbCore.Decimal
