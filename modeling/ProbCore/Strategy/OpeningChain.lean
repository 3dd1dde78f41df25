import ProbCore.Strategy.Filter

/-! A chain over the openings of executions: each taken up to its first factor, or to its end
if it has none. An inner filter estimates the mass of the ways to go on from an opening, and
takes the place of the exact likelihood when a move is accepted or not. -/

namespace ProbCore.OpeningChain

structure Config where
  particles : Nat
  sweeps : Nat
  startAttempts : Given Nat

def Config.filter (c : Config) : Filter.Config := ⟨c.particles, 0, .multinomial⟩

/-- An opening, the estimate of its log mass, and the population that the estimate left. -/
structure State (κ D R : Type) where
  opening : Trace κ D R
  logMass : R
  population : List (Particle κ D R)

variable {m : Type → Type} {κ D R : Type} [Monad m] [Host m D R] [Score R]

/-- Estimates the log likelihood of an opening, with a population of its completions. -/
@[specialize]
def complete (resume : Resume m κ D R) (fuel : Nat) (c : Config) (opening : Trace κ D R) :
    m (R × List (Particle κ D R)) := do
  let out ← Host.nested
    (Filter.run resume fuel c.filter (List.replicate c.particles ⟨opening, Score.zero⟩))
  return (opening.likelihood + out.logMass, out.survivors)

/-- The value of one member of a population. -/
def drawValue (population : List (Particle κ D R)) : m Value := do
  match ← Particle.select .multinomial (population.map (·.weight)) 1 with
  | i :: _ => return (population[i]?.bind (·.trace.value?)).getD .absent
  | [] => Host.fail (.invalid .other)

/-- A proposed opening with the log acceptance ratio of choices and proposal alone: the
likelihood that the move counts is taken out again. -/
@[specialize]
def propose (resume : Resume m κ D R) (fuel : Nat) (opening : Trace κ D R) :
    m (Option (Trace κ D R × R)) := do
  if opening.choices.isEmpty then return some (opening, Score.zero)
  else
    match ← Kernel.regenerate resume fuel opening (some 1) with
    | none => return none
    | some (new, logAlpha) =>
      return some (new, logAlpha - (new.likelihood - opening.likelihood))

/-- An opening that has mass and whose inner filter keeps a particle alive. -/
@[specialize]
def startChain (resume : Resume m κ D R) (fuel : Nat) (c : Config) (entry : κ) (s : Store) :
    m (State κ D R) :=
  go c.startAttempts.val 1
where
  @[specialize] go : Nat → Nat → m (State κ D R)
    | 0, _ => Host.fail (.inference (.noSurvivingStart c.startAttempts.shown))
    | remaining + 1, attempt => do
      let opening ← Kernel.findStart resume fuel entry s (some 1) c.startAttempts
      match ← Host.unlessDegenerate (complete resume fuel c opening) with
      | some (logMass, population) => return ⟨opening, logMass, population⟩
      | none =>
        Host.note (.startLost attempt)
        go remaining (attempt + 1)

/-- One sweep: a proposal, its inner filter and the decision; the next state, and whether it
is new. -/
@[specialize]
def sweep (resume : Resume m κ D R) (fuel : Nat) (c : Config) (st : State κ D R) :
    m (State κ D R × Bool) := do
  match ← propose resume fuel st.opening with
  | none => return (st, false)
  | some (opening, logAlpha) =>
    let (logMass, population) :=
      (← Host.unlessDegenerate (complete resume fuel c opening)).getD (Score.impossible, [])
    let logAlpha := logAlpha + (logMass - st.logMass)
    if population.isEmpty then return (st, false)
    else if Score.less (← Host.logUniform) logAlpha then
      return (⟨opening, logMass, population⟩, true)
    else return (st, false)

/-- The remaining sweeps: values drawn, latest first, and the number accepted. -/
@[specialize]
def sweeps (resume : Resume m κ D R) (fuel : Nat) (c : Config) :
    Nat → Nat → State κ D R → List Value → Nat → m (List Value × Nat)
  | 0, _, _, values, accepted => pure (values, accepted)
  | remaining + 1, number, st, values, accepted => do
    let (st, moved) ← sweep resume fuel c st
    let value ← drawValue st.population
    Host.note (.sweep number (Score.toFloat st.logMass))
    sweeps resume fuel c remaining (number + 1) st (value :: values)
      (if moved then accepted + 1 else accepted)

@[specialize]
def estimate (resume : Resume m κ D R) (fuel : Nat) (c : Config) (entry : κ) (s : Store) :
    m (Marginal Value R) := do
  let st ← startChain resume fuel c entry s
  let (values, accepted) ← sweeps resume fuel c c.sweeps 1 st [] 0
  Host.lift (Marginal.ofSamples values.reverse none
    [("acceptance_rate", .rate (Score.ofNat accepted / Score.ofNat c.sweeps))])

end ProbCore.OpeningChain
