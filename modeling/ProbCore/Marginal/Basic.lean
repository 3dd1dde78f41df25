/-! The answer of an inference: distinct values with normalized log probabilities. -/

namespace ProbCore

/-- A figure reported beside an answer. -/
inductive Measure (ρ : Type) where
  | count (n : Int)
  | rate (x : ρ)

/-- `values` are distinct and in order of first appearance, and `logProbs` are their
normalized log probabilities. `samples` keeps the raw draws of a sampling strategy, and
`normalization` its estimate of the log mass of all executions, if it makes one. -/
structure Marginal (α ρ : Type) where
  values : List α
  logProbs : List ρ
  normalization : Option ρ
  samples : List α
  diagnostics : List (String × Measure ρ)

end ProbCore
