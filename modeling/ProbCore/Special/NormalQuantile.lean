/-! The quantiles of the standard normal distribution, by rational approximations on three
ranges. -/

namespace ProbCore.Special

/-- A polynomial from its highest coefficient down. -/
private def polynomial (coefficients : List Float) (x : Float) : Float :=
  coefficients.foldl (fun sum c => sum * x + c) 0

private def centralTop : List Float :=
  [2.5090809287301226727e3, 3.3430575583588128105e4, 6.7265770927008700853e4, 4.5921953931549871457e4,
   1.3731693765509461125e4, 1.9715909503065514427e3, 1.3314166789178437745e2, 3.3871328727963666080e0]

private def centralBottom : List Float :=
  [5.2264952788528545610e3, 2.8729085735721942674e4, 3.9307895800092710610e4, 2.1213794301586595867e4,
   5.3941960214247511077e3, 6.8718700749205790830e2, 4.2313330701600911252e1, 1.0]

private def middleTop : List Float :=
  [7.74545014278341407640e-4, 2.27238449892691845833e-2, 2.41780725177450611770e-1, 1.27045825245236838258e0,
   3.64784832476320460504e0, 5.76949722146069140550e0, 4.63033784615654529590e0, 1.42343711074968357734e0]

private def middleBottom : List Float :=
  [1.05075007164441684324e-9, 5.47593808499534494600e-4, 1.51986665636164571966e-2, 1.48103976427480074590e-1,
   6.89767334985100004550e-1, 1.67638483018380384940e0, 2.05319162663775882187e0, 1.0]

private def tailTop : List Float :=
  [2.01033439929228813265e-7, 2.71155556874348757815e-5, 1.24266094738807843860e-3, 2.65321895265761230930e-2,
   2.96560571828504891230e-1, 1.78482653991729133580e0, 5.46378491116411436990e0, 6.65790464350110377720e0]

private def tailBottom : List Float :=
  [2.04426310338993978564e-15, 1.42151175831644588870e-7, 1.84631831751005468180e-5, 7.86869131145613259100e-4,
   1.48753612908506148525e-2, 1.36929880922735805310e-1, 5.99832206555887937690e-1, 1.0]

/-- The number below which a standard normal variable falls with probability `p`, for `p`
between 0 and 1. -/
def normalQuantile (p : Float) : Float :=
  let q := p - 0.5
  if q.abs ≤ 0.425 then
    let r := 0.180625 - q * q
    q * polynomial centralTop r / polynomial centralBottom r
  else
    let r := (-(if q ≤ 0 then p else 1 - p).log).sqrt
    let x :=
      if r ≤ 5 then polynomial middleTop (r - 1.6) / polynomial middleBottom (r - 1.6)
      else polynomial tailTop (r - 5) / polynomial tailBottom (r - 5)
    if q < 0 then -x else x

end ProbCore.Special
