import ProbCore.Instance.Kernel

/-! The estimates of the strategies' instances. Each sets what it reads before it runs the program. -/

namespace ProbCore.Instance

open Act

variable {σ κ D R : Type} [Host (EStateM Failure σ) D R] [Score R]

namespace Enumeration

open ProbCore.Enumeration (Config Search)

def updateSearch (g : Search κ R → Search κ R) : Act σ κ D R Unit := update fun f => { f with search := g f.search }

def hooks : Hooks σ κ D R where
  sample s k _ d := do
    let f ← fields
    let branches ← host do ProbCore.Enumeration.fork d k s f.search.score (← Host.support d)
    updateSearch fun st => { st with frontier := st.frontier.pushAll branches }
    return .signal .suspended
  factor _ _ _ x := do
    updateSearch fun st => { st with score := st.score + x }
    let f ← fields
    if Score.isImpossible f.search.score || Score.isNaN f.search.score then return .signal .rejected
    else return .goOn .absent
  exit _ value := do
    updateSearch fun st => { st with found := (value, st.score) :: st.found, count := st.count + 1 }
    return .done

def explore (resume : Resume (EStateM Failure σ) κ D R) (c : Config) (steps : Nat) : Nat → Act σ κ D R Unit
  | 0 => throw .outOfFuel
  | fuel + 1 => do
    let f ← fields
    if f.search.exhausted c then return ()
    else
      match f.search.frontier.pop? with
      | none => return ()
      | some (b, frontier) =>
        updateSearch fun st => { st with frontier, score := b.score }
        let _ ← trampoline resume hooks steps (← host (resume b.k b.store b.value))
        explore resume c steps fuel

def estimate (resume : Resume (EStateM Failure σ) κ D R) (fuel : Nat) (c : Config) (entry : κ) (s : Store) :
    Act σ κ D R (Marginal Value R) := do
  updateSearch fun _ => ⟨.empty c.traversal, Score.zero, [], 0⟩
  let _ ← trampoline resume hooks fuel (← host (resume entry s .absent))
  explore resume c fuel fuel
  let f ← fields
  if f.search.count == 0 then throw (.inference .nothingFound)
  else
    host (Host.note (.enumerated f.search.count f.search.frontier.size))
    let found := f.search.found.reverse
    let scores := found.map (·.2)
    host (Host.lift (Marginal.ofLogWeights (found.map (·.1)) scores (some (Score.logSumExp scores)) []
      [("executions", .count f.search.count)]))

end Enumeration

namespace Rejection

open ProbCore.Rejection (Config)

def hooks (c : Config R) : Hooks σ κ D R where
  sample _ _ _ d := return .goOn (← host (Host.draw d))
  factor _ _ a x := do
    if c.incremental then
      if Score.less Score.zero x then throw (.configuration (.positiveFactor (Score.toFloat x) a))
      else
        update fun f => { f with score := f.score + x }
        let f ← fields
        if Score.atMost f.score f.threshold then return .signal .rejected else return .goOn .absent
    else
      update fun f => { f with score := f.score + x }
      return .goOn .absent
  exit _ value := do
    let f ← fields
    if c.incremental then
      update fun f => { f with accepted := value :: f.accepted }
      return .done
    else if Score.less c.bound.val f.score then
      throw (.configuration (.scoreAboveBound (Score.toFloat f.score) c.bound.shown))
    else if Score.less f.threshold (f.score - c.bound.val) then
      update fun f => { f with accepted := value :: f.accepted }
      return .done
    else return .rejected

def attempt (resume : Resume (EStateM Failure σ) κ D R) (fuel : Nat) (c : Config R) (entry : κ) (s : Store) :
    Act σ κ D R Signal := do
  update fun f => { f with score := Score.zero }
  let threshold ← host Host.logUniform
  update fun f => { f with threshold }
  trampoline resume (hooks c) fuel (← host (resume entry s .absent))

/-- Attempts until enough values are accepted; the number made. -/
def collect (resume : Resume (EStateM Failure σ) κ D R) (fuel : Nat) (c : Config R) (entry : κ) (s : Store) :
    Nat → Nat → Act σ κ D R Nat
  | remaining, made => do
    let f ← fields
    if c.samples.val ≤ f.accepted.length then return made
    else
      match remaining with
      | 0 => throw (.inference (.tooFewAccepted f.accepted.length c.samples.shown c.attempts.shown))
      | remaining + 1 =>
        let _ ← attempt resume fuel c entry s
        collect resume fuel c entry s remaining (made + 1)

def estimate (resume : Resume (EStateM Failure σ) κ D R) (fuel : Nat) (c : Config R) (entry : κ) (s : Store) :
    Act σ κ D R (Marginal Value R) := do
  update fun f => { f with accepted := [] }
  let made ← collect resume fuel c entry s c.attempts.val 0
  host (Host.note (.rejected c.samples.val made))
  let f ← fields
  host (Host.lift (Marginal.ofSamples f.accepted.reverse none
    [("attempts", .count made),
     ("acceptance_rate", .rate (Score.ofNat c.samples.val / Score.ofNat made))]))

end Rejection

namespace Chain

open ProbCore.Chain (Config)

def walk (resume : Resume (EStateM Failure σ) κ D R) (fuel : Nat) (c : Config) :
    Nat → Nat → Trace κ D R → List Value → Nat → Act σ κ D R (List Value × Nat)
  | 0, _, _, values, accepted => return (values, accepted)
  | remaining + 1, step, t, values, accepted => do
    let (t, moved) ← move resume fuel t none
    let accepted := if moved then accepted + 1 else accepted
    if c.records step then
      walk resume fuel c remaining (step + 1) t ((← exitValue t) :: values) accepted
    else walk resume fuel c remaining (step + 1) t values accepted

def estimate (resume : Resume (EStateM Failure σ) κ D R) (fuel : Nat) (c : Config) (entry : κ) (s : Store) :
    Act σ κ D R (Marginal Value R) := do
  let t ← findStart resume fuel entry s none c.startAttempts
  let (values, accepted) ← walk resume fuel c c.steps 0 t [] 0
  let rate : R := Score.ofNat accepted / Score.ofNat c.steps
  if c.verbose then host (Host.note (.acceptance (Score.toFloat rate) c.steps))
  host (Host.lift (Marginal.ofSamples values.reverse none [("acceptance_rate", .rate rate)]))

end Chain

/-- Runs a particle up to and including its next factor, whose score its weight gains. -/
def advance (resume : Resume (EStateM Failure σ) κ D R) (fuel : Nat) (p : Particle κ D R) :
    Act σ κ D R (Particle κ D R) := do
  if p.finished then return p
  else
    match ← extend resume fuel p.trace (some (p.trace.factors + 1)) with
    | none => return ⟨p.trace, Score.impossible⟩
    | some t => return ⟨t, p.weight + (t.likelihood - p.trace.likelihood)⟩

namespace Filter

open ProbCore.Filter (Config Outcome Report frontline)

def moveTrace (resume : Resume (EStateM Failure σ) κ D R) (fuel : Nat) (limit : Nat) :
    Nat → Trace κ D R → Act σ κ D R (Trace κ D R)
  | 0, t => return t
  | moves + 1, t => do
    moveTrace resume fuel limit moves (← move resume fuel t (some limit)).1

def rejuvenate (resume : Resume (EStateM Failure σ) κ D R) (fuel : Nat) (c : Config) (limit : Nat)
    (p : Particle κ D R) : Act σ κ D R (Particle κ D R) := do
  return ⟨← moveTrace resume fuel limit c.moves p.trace, p.weight⟩

/-- The estimated log mass and the surviving particles. -/
def rounds (resume : Resume (EStateM Failure σ) κ D R) (steps : Nat) (c : Config) :
    Nat → List (Particle κ D R) → R → Report R → Act σ κ D R (R × List (Particle κ D R))
  | 0, _, _, _ => throw .outOfFuel
  | fuel + 1, ps, logMass, report => do
    let ps ← ps.mapM (advance resume steps)
    if ps.all Particle.finished then
      let logMass := logMass + (← host (Host.lift (Particle.logMeanWeight ps)))
      update fun f => { f with report := some report }
      return (logMass, ps.filter Particle.alive)
    else
      let logMass := logMass + (← host (Host.lift (Particle.logMeanWeight ps)))
      let size := Score.effectiveSize (ps.map (·.weight))
      let report := ⟨report.rounds + 1, Score.least report.leastSize size⟩
      let limit := frontline ps
      let ps ← host (ProbCore.Filter.resample c ps)
      let ps ← if c.moves == 0 then pure ps else ps.mapM (rejuvenate resume steps c limit)
      host (Host.note (.filterRound report.rounds (Score.toFloat logMass)))
      rounds resume steps c fuel ps logMass report

def run (resume : Resume (EStateM Failure σ) κ D R) (fuel : Nat) (c : Config) (ps : List (Particle κ D R)) :
    Act σ κ D R (R × List (Particle κ D R)) :=
  rounds resume fuel c fuel ps Score.zero ⟨0, Score.ofNat ps.length⟩

/-- What a run answers, and what it reports of itself. -/
def outcome (resume : Resume (EStateM Failure σ) κ D R) (fuel : Nat) (c : Config) (ps : List (Particle κ D R)) :
    Act σ κ D R (Outcome κ D R) := do
  let (logMass, survivors) ← run resume fuel c ps
  let f ← fields
  return ⟨logMass, survivors, f.report.getD ⟨0, Score.zero⟩⟩

def estimate (resume : Resume (EStateM Failure σ) κ D R) (fuel : Nat) (c : Config) (entry : κ) (s : Store) :
    Act σ κ D R (Marginal Value R) := do
  let (logMass, survivors) ← run resume fuel c (List.replicate c.particles ⟨.start entry s, Score.zero⟩)
  let values := survivors.map fun p => p.trace.value?.getD .absent
  let f ← fields
  host (Host.lift (Marginal.ofLogWeights values (survivors.map (·.weight)) (some logMass) []
    ((f.report.map (·.diagnostics)).getD [])))

end Filter

namespace OpeningChain

open ProbCore.OpeningChain (Config State drawValue)

/-- The inner filter is an instance of its own. -/
def complete (resume : Resume (EStateM Failure σ) κ D R) (fuel : Nat) (c : Config) (opening : Trace κ D R) :
    EStateM Failure σ (R × List (Particle κ D R)) := do
  let out ← Host.nested
    (onNew (Filter.outcome resume fuel c.filter (List.replicate c.particles ⟨opening, Score.zero⟩)))
  return (opening.likelihood + out.logMass, out.survivors)

def propose (resume : Resume (EStateM Failure σ) κ D R) (fuel : Nat) (opening : Trace κ D R) :
    Act σ κ D R (Option (Trace κ D R × R)) := do
  if opening.choices.isEmpty then return some (opening, Score.zero)
  else
    match ← regenerate resume fuel opening (some 1) with
    | none => return none
    | some (new, logAlpha) =>
      return some (new, logAlpha - (new.likelihood - opening.likelihood))

def startChain (resume : Resume (EStateM Failure σ) κ D R) (fuel : Nat) (c : Config) (entry : κ) (s : Store) :
    Act σ κ D R (State κ D R) :=
  go c.startAttempts.val 1
where
  go : Nat → Nat → Act σ κ D R (State κ D R)
    | 0, _ => throw (.inference (.noSurvivingStart c.startAttempts.shown))
    | remaining + 1, attempt => do
      let opening ← findStart resume fuel entry s (some 1) c.startAttempts
      match ← host (Host.unlessDegenerate (complete resume fuel c opening)) with
      | some (logMass, population) => return ⟨opening, logMass, population⟩
      | none =>
        host (Host.note (.startLost attempt))
        go remaining (attempt + 1)

def sweep (resume : Resume (EStateM Failure σ) κ D R) (fuel : Nat) (c : Config) (st : State κ D R) :
    Act σ κ D R (State κ D R × Bool) := do
  match ← propose resume fuel st.opening with
  | none => return (st, false)
  | some (opening, logAlpha) =>
    let (logMass, population) :=
      (← host (Host.unlessDegenerate (complete resume fuel c opening))).getD (Score.impossible, [])
    let logAlpha := logAlpha + (logMass - st.logMass)
    if population.isEmpty then return (st, false)
    else if Score.less (← host Host.logUniform) logAlpha then
      return (⟨opening, logMass, population⟩, true)
    else return (st, false)

def sweeps (resume : Resume (EStateM Failure σ) κ D R) (fuel : Nat) (c : Config) :
    Nat → Nat → State κ D R → List Value → Nat → Act σ κ D R (List Value × Nat)
  | 0, _, _, values, accepted => return (values, accepted)
  | remaining + 1, number, st, values, accepted => do
    let (st, moved) ← sweep resume fuel c st
    let value ← host (drawValue st.population)
    host (Host.note (.sweep number (Score.toFloat st.logMass)))
    sweeps resume fuel c remaining (number + 1) st (value :: values)
      (if moved then accepted + 1 else accepted)

def estimate (resume : Resume (EStateM Failure σ) κ D R) (fuel : Nat) (c : Config) (entry : κ) (s : Store) :
    Act σ κ D R (Marginal Value R) := do
  let st ← startChain resume fuel c entry s
  let (values, accepted) ← sweeps resume fuel c c.sweeps 1 st [] 0
  host (Host.lift (Marginal.ofSamples values.reverse none
    [("acceptance_rate", .rate (Score.ofNat accepted / Score.ofNat c.sweeps))]))

end OpeningChain

namespace Cascade

open ProbCore.Cascade (Config)

/-- The particles of a run: those that wait, next first, and the finished ones, latest first. -/
structure Queue (κ D R : Type) where
  buffer : List (Particle κ D R)
  finished : List (Particle κ D R)

/-- The same particles as a pool. -/
def Queue.pool (queue : Queue κ D R) (arrivals : ProbCore.Cascade.Arrivals R) : ProbCore.Cascade.Pool κ D R :=
  ⟨queue.buffer, queue.finished, queue.finished.length, arrivals⟩

/-- Counts an arrival; the mean weight at its factor. -/
def arrive (j : Nat) (weight : R) : Act σ κ D R R := do
  let f ← fields
  let (mean, arrivals) := ProbCore.Cascade.arrive f.arrivals j weight
  update fun f => { f with arrivals }
  return mean

/-- The children of a particle that has arrived at a factor. -/
def children (c : Config) (p : Particle κ D R) (buffered : Nat) : Act σ κ D R (List (Particle κ D R)) := do
  let mean ← arrive p.trace.factors p.weight
  host (ProbCore.Cascade.children c p mean buffered)

def process (resume : Resume (EStateM Failure σ) κ D R) (fuel : Nat) (c : Config) (p : Particle κ D R)
    (queue : Queue κ D R) : Act σ κ D R (Queue κ D R) := do
  let p ← advance resume fuel p
  if !p.alive then return queue
  else if p.trace.done then return { queue with finished := p :: queue.finished }
  else
    let born ← children c p queue.buffer.length
    return { queue with buffer := born.reverse ++ queue.buffer }

def schedule (resume : Resume (EStateM Failure σ) κ D R) (steps : Nat) (c : Config) (root : Particle κ D R) :
    Nat → Queue κ D R → Nat → Act σ κ D R (Queue κ D R × Nat)
  | 0, _, _ => throw .outOfFuel
  | fuel + 1, queue, roots =>
    match queue.buffer with
    | p :: buffer => do
      schedule resume steps c root fuel (← process resume steps c p { queue with buffer }) roots
    | [] =>
      if c.particles.val ≤ queue.finished.length then return (queue, roots)
      else if c.mostRoots ≤ roots then
        throw (.inference (.rootsExhausted queue.finished.length c.particles.shown roots))
      else do
        schedule resume steps c root fuel (← process resume steps c root queue) (roots + 1)

def estimate (resume : Resume (EStateM Failure σ) κ D R) (fuel : Nat) (c : Config) (entry : κ) (s : Store) :
    Act σ κ D R (Marginal Value R) := do
  update fun f => { f with arrivals := [] }
  let (queue, roots) ← schedule resume fuel c ⟨.start entry s, Score.zero⟩ fuel ⟨[], []⟩ 0
  let f ← fields
  host (ProbCore.Cascade.conclude (queue.pool f.arrivals) roots)

end Cascade

/-- Runs a program to a marginal on an instance of a strategy. -/
def estimate (resume : Resume (EStateM Failure σ) κ D R) (fuel : Nat) (entry : κ) (s : Store) :
    Strategy R → Act σ κ D R (Marginal Value R)
  | .enumerate c => Enumeration.estimate resume fuel c entry s
  | .rejection c => Rejection.estimate resume fuel c entry s
  | .mcmc c => Chain.estimate resume fuel c entry s
  | .smc c => Filter.estimate resume fuel c entry s
  | .pmcmc c => OpeningChain.estimate resume fuel c entry s
  | .asyncpf c => Cascade.estimate resume fuel c entry s

end ProbCore.Instance
