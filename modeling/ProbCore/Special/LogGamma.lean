/-! The logarithm of the magnitude of the gamma function. -/

namespace ProbCore.Special

private def pi : Float := 3.141592653589793

/-- Coefficients of a rational approximation with nine terms. -/
private def terms : List Float :=
  [676.5203681218851, -1259.1392167224028, 771.32342877765313, -176.61502916214059,
   12.507343278686905, -0.13857109526572012, 9.9843695780195716e-6, 1.5056327351493116e-7]

private def logGammaUpper (x : Float) : Float :=
  let y := x - 1
  let series := (terms.foldl (fun (acc : Float × Float) c => (acc.1 + c / (y + acc.2), acc.2 + 1))
    (0.99999999999980993, 1)).1
  let t := y + 7.5
  0.5 * (2 * pi).log + (y + 0.5) * t.log - t + series.log

/-- Infinite at zero and the negative integers. Below one half the reflection formula applies. -/
def logGamma (x : Float) : Float :=
  if x.isNaN then x
  else if !x.isFinite then 1 / 0
  else if x ≤ 0 && x.floor == x then 1 / 0
  else if x == 1 || x == 2 then 0
  else if x < 0.5 then (pi / (pi * x).sin.abs).log - logGammaUpper (1 - x)
  else logGammaUpper x

/-- The logarithm of the beta function. -/
def logBeta (a b : Float) : Float := logGamma a + logGamma b - logGamma (a + b)

end ProbCore.Special
