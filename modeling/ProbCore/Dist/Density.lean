import ProbCore.Dist.Basic
import ProbCore.Dist.Array
import ProbCore.Special.LogGamma
import ProbCore.Special.LogOnePlus

/-! Log densities. Parameters are rounded to single precision, the formulas are evaluated in
double precision, and the result is rounded at the end. -/

namespace ProbCore

namespace Density

/-- A product that is zero when the second factor is, whatever the first. -/
private def times (x y : Float) : Float := if y == 0 then 0 else x * y

private def log1m (p : Float) : Float := Special.logOnePlus (-p)

private def impossible : Float := -1 / 0

def flip (p v : Float) : Float := times (log1m p) (1 - v) + times p.log v

def binomial (n p v : Float) : Float :=
  times p.log v + times (log1m p) (n - v) - Special.logBeta (1 + v) (1 + n - v) - (1 + n).log

def geometric (p v : Float) : Float := times (log1m p) v.floor + p.log

def poisson (r v : Float) : Float :=
  if v < 0 then impossible - r
  else times r.log v - Special.logGamma (1 + v) - r

def uniform (low high v : Float) : Float :=
  if v < low || v > high then impossible else (1 / (high - low)).log

def gaussian (mean sd v : Float) : Float :=
  let z := v / sd - mean / sd
  let area := 0.5 * (2 * 3.141592653589793 : Float).log + sd.log
  (-0.5) * (z * z) - area

def beta (a b v : Float) : Float :=
  times v.log (a - 1) + times (log1m v) (b - 1) - Special.logBeta a b

def exponential (r v : Float) : Float := r.log - r * v

def gamma (shape scale v : Float) : Float :=
  times v.log (shape - 1) - v / scale - Special.logGamma shape + shape * (1 / scale).log

/-- Outside the range of indices the density is that of a certain event. -/
def categorical (probs : List Float) (v : Float) : Float :=
  if v < 0 then 0
  else
    match probs[v.toUInt64.toNat]? with
    | some p => p.log - (probs.foldl (· + ·) 0).log
    | none => 0

/-- Uniform over the indices below `n`. -/
def index (n : Nat) (v : Float) : Float :=
  if v < 0 || v ≥ n.toFloat then 0 else -(n.toFloat.log)

end Density

namespace Dist

private def summed (xs : List Float) : Float := single (xs.foldl (· + ·) 0)

/-- The cell density of a family whose parameters are plain numbers. -/
private def cellDensity? : Family → List Float → Option (Float → Float)
  | .flip, [p] | .bernoulli, [p] => some (Density.flip p)
  | .binomial, [n, p] => some (Density.binomial n p)
  | .geometric, [p] => some (Density.geometric p)
  | .poisson, [r] => some (Density.poisson r)
  | .uniform, [low, high] => some (Density.uniform low high)
  | .gaussian, [mean, sd] => some (Density.gaussian mean sd)
  | .beta, [a, b] => some (Density.beta a b)
  | .exponential, [r] => some (Density.exponential r)
  | .gamma, [shape, scale] => some (Density.gamma shape scale)
  | _, _ => none

/-- How many parameters a family takes. -/
def arity : Family → Nat
  | .binomial | .uniform | .gaussian | .beta | .gamma => 2
  | _ => 1

/-- The parameters with those filled in that may be left out. -/
def completed : Family → List Value → List Value
  | .flip, [] => [.float 0.5]
  | .uniform, [] => [.float 0, .float 1]
  | .uniform, [low] => [low, .float 1]
  | _, params => params

/-- The parameters as arrays. -/
def arrays (family : Family) (params : List Value) : Except Failure (List Numbers) := do
  let params := completed family params
  if params.length != arity family then throw .illTyped
  Numbers.ofValues Numbers.toSingle params

/-- How a family converts the values whose density is asked. -/
def convert : Family → Value → Except Failure Float
  | .flip => Numbers.toFlag
  | .bernoulli | .categorical | .randomInteger => Numbers.toWord
  | _ => Numbers.toSingle

/-- The number of outcomes of a uniform integer. -/
def outcomes (params : List Value) : Except Failure Nat :=
  match params with
  | [n] =>
    match n.scalar.int? with
    | some n => if n < 0 then .error .illTyped else .ok n.toNat
    | none => .error .illTyped
  | _ => .error .illTyped

/-- An array of weights as rows along its last axis, with the shape of the other axes. -/
def weightRows (a : Numbers) : Except Failure (List Nat × Array (List Float)) :=
  match a.shape.reverse with
  | [] => .error (.invalid .other)
  | width :: outer =>
    let count := Tensor.size outer
    .ok (outer.reverse,
      ((List.range count).map fun i => (a.cells.drop (i * width)).take width).toArray)

private def categoricalDensity (probs : Numbers) (v : Numbers) : Except Failure Float := do
  let (outer, weights) ← weightRows probs
  let places : Numbers := ⟨outer, (List.range weights.size).map Nat.toFloat⟩
  let shape ← Numbers.commonShape [places, v]
  return summed ((Numbers.rows [places, v] shape).map fun row =>
    match row with
    | [place, x] => Density.categorical (weights[place.toUInt64.toNat]?.getD []) x
    | _ => 0)

/-- The log density of a value; arrays are matched cell by cell and their densities added. -/
def logDensity (d : Dist) (value : Value) : Except Failure Float :=
  match d with
  | table _ rows _ => do
    let key ← value.key
    let found ← rows.findM? fun row => do return (← row.1.key) == key
    return single ((found.map (·.2)).getD (-1 / 0))
  | standard family params => do
    let v ← Numbers.ofValue (convert family) value
    match family with
    | .randomInteger =>
      let n ← outcomes params
      return summed (v.cells.map (Density.index n))
    | .categorical =>
      match ← arrays family params with
      | [probs] => categoricalDensity probs v
      | _ => throw .illTyped
    | _ =>
      let params ← arrays family params
      let shape ← Numbers.commonShape (v :: params)
      return summed ((Numbers.rows (v :: params) shape).map fun row =>
        match row with
        | x :: ps => ((cellDensity? family ps).map (· x)).getD 0
        | [] => 0)

/-- Whether a value could have been drawn. -/
def accepts (d : Dist) (value : Value) : Except Failure Bool := do
  if d.enumerable then return (← d.support).contains value
  else return (← d.logDensity value).isFinite

/-- The mass of all listed values together. -/
def total (d : Dist) : Except Failure Float := do
  let densities ← (← d.support).mapM d.logDensity
  return (densities.map Float.exp).foldl (· + ·) 0

end Dist

end ProbCore
