import ProbCore.Strategy.Particle
import ProbCore.Strategy.Given
import ProbCore.Marginal.Grouping

/-! A particle cascade. Particles run one at a time from a buffer. One that reaches a factor
is compared with the mean weight of those that came there before: a light one survives by
chance, a heavy one has several children. New roots are started until enough particles are
finished, and then the buffer is drained. -/

namespace ProbCore.Cascade

structure Config where
  particles : Given Nat
  bufferSize : Nat
  mostRoots : Nat

/-- For each factor, how many particles arrived at it and the logarithm of their mean
weight. -/
abbrev Arrivals (R : Type) := List (Nat × Nat × R)

variable {m : Type → Type} {κ D R : Type} [Monad m] [Host m D R] [Score R]

/-- The running mean with one more weight. -/
def runningMean (seen : Option (Nat × R)) (weight : R) : Nat × R :=
  match seen with
  | none => (1, weight)
  | some (count, mean) =>
    (count + 1,
      Score.logAddExp (mean + Score.logNat count) weight - Score.logNat (count + 1))

/-- Folds a weight into the mean at factor `j`; the new mean and the new arrivals. -/
def arrive (arrivals : Arrivals R) (j : Nat) (weight : R) : R × Arrivals R :=
  let entry := runningMean (arrivals.lookup j) weight
  (entry.2, (j, entry) :: arrivals.filter (·.1 != j))

/-- How many children a particle has whose weight exceeds the mean by a log ratio. -/
def childCount (c : Config) (logRatio : R) (buffered : Nat) : Except Failure Nat :=
  if Score.isNaN logRatio then .error (.invalid .nanToInt)
  else
    let ratio := Score.exp logRatio
    if !Score.isFinite ratio then .error .overflow
    else .ok (min (Score.floor ratio) (max 1 ((c.bufferSize : Int) - buffered))).toNat

/-- The children of a particle at a factor with the given mean. They share its weight, or the
one that survives has the mean's. -/
def children (c : Config) (p : Particle κ D R) (mean : R) (buffered : Nat) :
    m (List (Particle κ D R)) := do
  let logRatio := p.weight - mean
  if Score.less logRatio Score.zero then
    return if Score.less (← Host.logUniform) logRatio then [⟨p.trace, mean⟩] else []
  else
    let count ← Host.lift (childCount c logRatio buffered)
    return List.replicate count ⟨p.trace, p.weight - Score.logNat count⟩

/-- Particles waiting, next first, the finished ones, latest first, and their number. -/
structure Pool (κ D R : Type) where
  buffer : List (Particle κ D R)
  finished : List (Particle κ D R)
  count : Nat
  arrivals : Arrivals R

/-- What becomes of a particle that runs to its next factor. -/
inductive Fate (κ D R : Type) where
  | lost
  | finished (p : Particle κ D R)
  | arrived (p : Particle κ D R)

@[specialize]
def run (resume : Resume m κ D R) (fuel : Nat) (p : Particle κ D R) : m (Fate κ D R) := do
  let p ← p.advance resume fuel
  if !p.alive then return .lost
  else if p.trace.done then return .finished p
  else return .arrived p

/-- Runs one particle and puts what comes of it into the pool. -/
@[specialize]
def process (resume : Resume m κ D R) (fuel : Nat) (c : Config) (p : Particle κ D R)
    (pool : Pool κ D R) : m (Pool κ D R) := do
  match ← run resume fuel p with
  | .lost => return pool
  | .finished p => return { pool with finished := p :: pool.finished, count := pool.count + 1 }
  | .arrived p =>
    let (mean, arrivals) := arrive pool.arrivals p.trace.factors p.weight
    let born ← children c p mean pool.buffer.length
    return { pool with buffer := born.reverse ++ pool.buffer, arrivals }

/-- Processes the buffer, and new roots when it is empty, until enough are finished; then
the rest of the buffer. The pool and the number of roots. -/
@[specialize]
def schedule (resume : Resume m κ D R) (steps : Nat) (c : Config) (root : Particle κ D R) :
    Nat → Pool κ D R → Nat → m (Pool κ D R × Nat)
  | 0, _, _ => Host.fail .outOfFuel
  | fuel + 1, pool, roots =>
    match pool.buffer with
    | p :: buffer => do
      schedule resume steps c root fuel (← process resume steps c p { pool with buffer }) roots
    | [] =>
      if c.particles.val ≤ pool.count then pure (pool, roots)
      else if c.mostRoots ≤ roots then
        Host.fail (.inference (.rootsExhausted pool.count c.particles.shown roots))
      else do
        schedule resume steps c root fuel (← process resume steps c root pool) (roots + 1)

/-- Runs the cascade from an empty pool. -/
@[specialize]
def collect (resume : Resume m κ D R) (fuel : Nat) (c : Config) (entry : κ) (s : Store) :
    m (Pool κ D R × Nat) :=
  let root : Particle κ D R := ⟨.start entry s, Score.zero⟩
  schedule resume fuel c root fuel ⟨[], [], 0, []⟩ 0

/-- The marginal of the finished particles. -/
def conclude (pool : Pool κ D R) (roots : Nat) : m (Marginal Value R) := do
  let finished := pool.finished.reverse
  let weights := finished.map (·.weight)
  let logMass := Score.logSumExp weights - Score.logNat roots
  Host.note (.cascade finished.length roots)
  Host.lift (Marginal.ofLogWeights (finished.map fun p => p.trace.value?.getD .absent) weights
    (some logMass) [] [("roots", .count roots), ("finished", .count finished.length)])

@[specialize]
def estimate (resume : Resume m κ D R) (fuel : Nat) (c : Config) (entry : κ) (s : Store) :
    m (Marginal Value R) := do
  let (pool, roots) ← collect resume fuel c entry s
  conclude pool roots

end ProbCore.Cascade
