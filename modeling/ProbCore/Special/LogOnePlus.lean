/-! The logarithm of one plus a number, to the last place or nearly so for small numbers
too. -/

namespace ProbCore.Special

/-- `log (1 + f) - 2 * s` over `s`, for `f` near zero and `s = f / (2 + f)`, as a polynomial in
the square of `s`. -/
private def remainder (z : Float) : Float :=
  let z2 := z * z
  let z4 := z2 * z2
  z * 6.666666666666735130e-01 + z2 * (3.999999999940941908e-01 + z * 2.857142874366239149e-01)
    + z4 * (2.222219843214978396e-01 + z * 1.818357216161805012e-01)
    + z4 * z2 * (1.531383769920937332e-01 + z * 1.479819860511658591e-01)

/-- The logarithm of two in a part with few digits and a small rest. -/
private def logTwoHigh : Float := 6.93147180369123816490e-01

private def logTwoLow : Float := 1.90821492927058770002e-10

/-- `1 + x` as `2 ^ k * (1 + f)` with `f` near zero, and what rounding lost of it. -/
private def split (x : Float) : Float × Float × Float :=
  if -0.2929 < x && x < 0.41422 then (0, x, 0)
  else
    let u := 1 + x
    let lost := (if u < 2 then x - (u - 1) else 1 - (u - x)) / u
    let (half, e) := u.frExp
    let m := 2 * half
    if m < 1.4142135623730951 then (Float.ofInt (e - 1), m - 1, lost)
    else (Float.ofInt e, half - 1, lost)

def logOnePlus (x : Float) : Float :=
  if x ≤ -1 || !x.isFinite then (1 + x).log
  else if x.abs < 5e-17 then x
  else
    let (k, f, lost) := split x
    let square := 0.5 * f * f
    let s := f / (2 + f)
    let r := remainder (s * s)
    if k == 0 && lost == 0 then f - (square - s * (square + r))
    else k * logTwoHigh - ((square - (s * (square + r) + (k * logTwoLow + lost))) - f)

end ProbCore.Special
