import ProbCore.Strategy.Particle
import ProbCore.Marginal.Grouping

/-! A particle filter. A population of executions is advanced in lockstep from factor to
factor. At each factor it is resampled, and its members may then move within the executions
taken up to that factor. -/

namespace ProbCore.Filter

structure Config where
  particles : Nat
  moves : Nat
  resampling : Resampling

/-- What a run of the filter reports of itself. -/
structure Report (R : Type) where
  rounds : Nat
  leastSize : R

def Report.diagnostics {R : Type} (r : Report R) : List (String × Measure R) :=
  [("rounds", .count r.rounds), ("min_ess", .rate r.leastSize)]

structure Outcome (κ D R : Type) where
  logMass : R
  survivors : List (Particle κ D R)
  report : Report R

variable {m : Type → Type} {κ D R : Type} [Monad m] [Host m D R] [Score R]

/-- A population of the same size drawn by the weights, all of weight one. -/
def resample (c : Config) (ps : List (Particle κ D R)) : m (List (Particle κ D R)) := do
  let indices ← Particle.select c.resampling (ps.map (·.weight)) ps.length
  return indices.filterMap fun i => ps[i]?.map fun p => ⟨p.trace, Score.zero⟩

@[specialize]
def moveTrace (resume : Resume m κ D R) (fuel : Nat) (limit : Nat) :
    Nat → Trace κ D R → m (Trace κ D R)
  | 0, t => pure t
  | moves + 1, t => do
    moveTrace resume fuel limit moves (← Kernel.move resume fuel t (some limit)).1

/-- Moves a particle among executions taken up to their `limit`-th factor. -/
@[specialize]
def rejuvenate (resume : Resume m κ D R) (fuel : Nat) (c : Config) (limit : Nat)
    (p : Particle κ D R) : m (Particle κ D R) := do
  return ⟨← moveTrace resume fuel limit c.moves p.trace, p.weight⟩

/-- The factors absorbed by the particles that are not finished. -/
def frontline (ps : List (Particle κ D R)) : Nat :=
  ((ps.filter fun p => !p.finished).map (·.trace.factors)).foldl max 0

/-- Rounds of advancing, weighing and resampling, until every particle is finished. -/
@[specialize]
def rounds (resume : Resume m κ D R) (steps : Nat) (c : Config) :
    Nat → List (Particle κ D R) → R → Report R → m (Outcome κ D R)
  | 0, _, _, _ => Host.fail .outOfFuel
  | fuel + 1, ps, logMass, report => do
    let ps ← ps.mapM (Particle.advance resume steps)
    if ps.all Particle.finished then
      let logMass := logMass + (← Host.lift (Particle.logMeanWeight ps))
      return ⟨logMass, ps.filter Particle.alive, report⟩
    else
      let logMass := logMass + (← Host.lift (Particle.logMeanWeight ps))
      let size := Score.effectiveSize (ps.map (·.weight))
      let report := ⟨report.rounds + 1, Score.least report.leastSize size⟩
      let limit := frontline ps
      let ps ← resample c ps
      let ps ← if c.moves == 0 then pure ps else ps.mapM (rejuvenate resume steps c limit)
      Host.note (.filterRound report.rounds (Score.toFloat logMass))
      rounds resume steps c fuel ps logMass report

/-- Filters a population: the estimated log mass, the surviving particles and a report. -/
@[specialize]
def run (resume : Resume m κ D R) (fuel : Nat) (c : Config) (ps : List (Particle κ D R)) :
    m (Outcome κ D R) :=
  rounds resume fuel c fuel ps Score.zero ⟨0, Score.ofNat ps.length⟩

@[specialize]
def estimate (resume : Resume m κ D R) (fuel : Nat) (c : Config) (entry : κ) (s : Store) :
    m (Marginal Value R) := do
  let out ← run resume fuel c (List.replicate c.particles ⟨.start entry s, Score.zero⟩)
  let values := out.survivors.map fun p => p.trace.value?.getD .absent
  Host.lift (Marginal.ofLogWeights values (out.survivors.map (·.weight)) (some out.logMass) []
    out.report.diagnostics)

end ProbCore.Filter
