import ProbCore.Strategy.Step
import ProbCore.Strategy.Given
import ProbCore.Marginal.Grouping

/-! Rejection sampling. Each attempt draws every choice forward and is accepted with the
probability that its score allows below a bound. The incremental form tests at every factor
and abandons an attempt at the first failure. -/

namespace ProbCore.Rejection

structure Config (R : Type) where
  samples : Given Nat
  bound : Given R
  incremental : Bool
  attempts : Given Nat

variable {m : Type → Type} {κ D R : Type} [Monad m] [Host m D R] [Score R]

/-- One attempt against a threshold that is drawn once for it. The state is the score so far,
the outcome the accepted value, if it is accepted. -/
@[specialize]
def handler (c : Config R) (threshold : R) : Handler m κ D R R (Option Value) where
  sample score _ _ _ d := do return .deliver score (← Host.draw d)
  factor score _ _ a x :=
    if c.incremental then
      if Score.less Score.zero x then
        Host.fail (.configuration (.positiveFactor (Score.toFloat x) a))
      else
        let score := score + x
        if Score.atMost score threshold then pure (.finish none)
        else pure (.deliver score .absent)
    else pure (.deliver (score + x) .absent)
  exit score _ value :=
    if c.incremental then pure (some value)
    else if Score.less c.bound.val score then
      Host.fail (.configuration (.scoreAboveBound (Score.toFloat score) c.bound.shown))
    else if Score.less threshold (score - c.bound.val) then pure (some value)
    else pure none

@[specialize]
def attempt (resume : Resume m κ D R) (fuel : Nat) (c : Config R) (entry : κ) (s : Store) :
    m (Option Value) := do
  let threshold ← Host.logUniform
  drive resume (handler c threshold) fuel Score.zero (← resume entry s .absent)

/-- Attempts until enough are accepted, latest first, with the number made. -/
@[specialize]
def collect (resume : Resume m κ D R) (fuel : Nat) (c : Config R) (entry : κ) (s : Store) :
    Nat → Nat → List Value → Nat → m (List Value × Nat)
  | remaining, made, accepted, count =>
    if c.samples.val ≤ count then pure (accepted, made)
    else
      match remaining with
      | 0 =>
        Host.fail (.inference (.tooFewAccepted count c.samples.shown c.attempts.shown))
      | remaining + 1 => do
        match ← attempt resume fuel c entry s with
        | some v => collect resume fuel c entry s remaining (made + 1) (v :: accepted) (count + 1)
        | none => collect resume fuel c entry s remaining (made + 1) accepted count

@[specialize]
def estimate (resume : Resume m κ D R) (fuel : Nat) (c : Config R) (entry : κ) (s : Store) :
    m (Marginal Value R) := do
  let (accepted, made) ← collect resume fuel c entry s c.attempts.val 0 [] 0
  Host.note (.rejected c.samples.val made)
  Host.lift (Marginal.ofSamples accepted.reverse none
    [("attempts", .count made),
     ("acceptance_rate", .rate (Score.ofNat c.samples.val / Score.ofNat made))])

end ProbCore.Rejection
