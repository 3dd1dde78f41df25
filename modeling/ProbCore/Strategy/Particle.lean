import ProbCore.Strategy.Kernel
import ProbCore.Score.Resampling

/-! Weighted executions. -/

namespace ProbCore

/-- An execution with its log weight; an impossible weight marks one that was abandoned. -/
structure Particle (κ D R : Type) where
  trace : Trace κ D R
  weight : R

namespace Particle

variable {m : Type → Type} {κ D R : Type} [Monad m] [Host m D R] [Score R]

def alive (p : Particle κ D R) : Bool := Score.less Score.impossible p.weight

def finished (p : Particle κ D R) : Bool := p.trace.done || !p.alive

/-- Runs a particle up to and including its next factor, whose score its weight gains. -/
@[specialize]
def advance (resume : Resume m κ D R) (fuel : Nat) (p : Particle κ D R) : m (Particle κ D R) := do
  if p.finished then return p
  else
    match ← Kernel.extend resume fuel p.trace (some (p.trace.factors + 1)) with
    | none => return ⟨p.trace, Score.impossible⟩
    | some t => return ⟨t, p.weight + (t.likelihood - p.trace.likelihood)⟩

/-- The logarithm of the mean weight; a population without weight is degenerate. -/
def logMeanWeight (ps : List (Particle κ D R)) : Except Failure R :=
  let total := Score.logSumExp (ps.map (·.weight))
  if Score.isImpossible total then .error .degenerate
  else .ok (total - Score.logNat ps.length)

/-- As many indices as asked for, drawn by their weights. -/
def select (method : Resampling) (weights : List R) (n : Nat) : m (List Nat) :=
  match method with
  | .multinomial => Host.categorical weights n
  | .systematic => do Host.lift (Score.systematic weights (← Host.offset) n)

end Particle

end ProbCore
