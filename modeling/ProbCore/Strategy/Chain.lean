import ProbCore.Strategy.Kernel
import ProbCore.Marginal.Grouping

/-! A chain of single-site moves. After burn-in, the value of every `lag`-th state is
recorded. -/

namespace ProbCore.Chain

structure Config where
  samples : Nat
  burn : Nat
  lag : Nat
  startAttempts : Given Nat
  verbose : Bool

def Config.steps (c : Config) : Nat := c.burn + c.samples * c.lag

/-- Whether the state after move number `step`, counted from zero, is recorded. -/
def Config.records (c : Config) (step : Nat) : Bool :=
  c.burn ≤ step && (step - c.burn + 1) % c.lag == 0

variable {m : Type → Type} {κ D R : Type} [Monad m] [Host m D R] [Score R]

/-- The remaining moves: values recorded, latest first, and the number accepted. -/
@[specialize]
def walk (resume : Resume m κ D R) (fuel : Nat) (c : Config) :
    Nat → Nat → Trace κ D R → List Value → Nat → m (List Value × Nat)
  | 0, _, _, values, accepted => pure (values, accepted)
  | remaining + 1, step, t, values, accepted => do
    let (t, moved) ← Kernel.move resume fuel t none
    let accepted := if moved then accepted + 1 else accepted
    if c.records step then
      walk resume fuel c remaining (step + 1) t ((← Kernel.exitValue t) :: values) accepted
    else walk resume fuel c remaining (step + 1) t values accepted

@[specialize]
def estimate (resume : Resume m κ D R) (fuel : Nat) (c : Config) (entry : κ) (s : Store) :
    m (Marginal Value R) := do
  let t ← Kernel.findStart resume fuel entry s none c.startAttempts
  let (values, accepted) ← walk resume fuel c c.steps 0 t [] 0
  let rate : R := Score.ofNat accepted / Score.ofNat c.steps
  if c.verbose then Host.note (.acceptance (Score.toFloat rate) c.steps)
  Host.lift (Marginal.ofSamples values.reverse none [("acceptance_rate", .rate rate)])

end ProbCore.Chain
