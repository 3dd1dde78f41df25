import ProbCore.Score.Weights
import ProbCore.Value.Key

/-! Building a marginal: equal values are grouped, their weights added, and the totals
normalized. -/

namespace ProbCore.Marginal

variable {R : Type} [Score R]

/-- A value that stands for its group, with the weights found for it. -/
structure Group (R : Type) where
  key : Value.Key
  value : Value
  weights : List R

/-- One more weighted value. Its group, if there is one, keeps its place and its first
value. -/
def Group.insert (key : Value.Key) (value : Value) (weight : R) : List (Group R) → List (Group R)
  | [] => [⟨key, value, [weight]⟩]
  | g :: rest =>
    if g.key == key then { g with weights := g.weights ++ [weight] } :: rest
    else g :: Group.insert key value weight rest

/-- The groups in order of first appearance. -/
def groups (values : List Value) (weights : List R) : Except Failure (List (Group R)) :=
  (values.zip weights).foldlM
    (fun gs (value, weight) => do return Group.insert (← value.key) value weight gs)
    []

/-- The marginal of weighted values. There is none when the values and weights do not match
up, or when the total weight is zero or not finite. -/
def ofLogWeights (values : List Value) (weights : List R) (normalization : Option R)
    (samples : List Value) (diagnostics : List (String × Measure R)) :
    Except Failure (Marginal Value R) := do
  if values.length != weights.length then throw (.invalid .lengthMismatch)
  let gs ← groups values weights
  let totals := gs.map fun g => Score.logSumExp g.weights
  let total := Score.logSumExp totals
  if !Score.isFinite total then throw (.inference .noMass)
  return {
    values := gs.map (·.value)
    logProbs := totals.map (· - total)
    normalization, samples, diagnostics }

/-- The marginal of equally weighted samples, which it keeps. -/
def ofSamples (samples : List Value) (normalization : Option R)
    (diagnostics : List (String × Measure R)) : Except Failure (Marginal Value R) :=
  ofLogWeights samples (samples.map fun _ => Score.zero) normalization samples diagnostics

end ProbCore.Marginal
