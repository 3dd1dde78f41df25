import ProbCore.Strategy.Host

/-! A program seen from outside: it runs until it needs its strategy, and a strategy decides
how it goes on. -/

namespace ProbCore

/-- Where a run comes to rest: at a choice or a factor, with the store and the suspended rest
`k`; at its final continuation; or at a bare value, having skipped that continuation. A bounce is
no step: it is gone on with until a step comes back. -/
inductive Step (κ D R : Type) where
  | sample (s : Store) (k : κ) (a : Address) (d : D)
  | factor (s : Store) (k : κ) (a : Address) (score : R)
  | exit (s : Store) (value : Value)
  | stray (value : Value)

/-- Resumes a suspended rest with a store and a value, up to the next step. -/
abbrev Resume (m : Type → Type) (κ D R : Type) := κ → Store → Value → m (Step κ D R)

/-- What a strategy does at a choice or a factor: hand a value to the suspended rest and keep
a new state, or finish this execution. -/
inductive Reaction (σ ο : Type) where
  | deliver (state : σ) (value : Value)
  | finish (outcome : ο)

/-- A strategy's part in a single execution, from its state to an outcome. -/
structure Handler (m : Type → Type) (κ D R σ ο : Type) where
  sample : σ → Store → κ → Address → D → m (Reaction σ ο)
  factor : σ → Store → κ → Address → R → m (Reaction σ ο)
  exit : σ → Store → Value → m ο

variable {m : Type → Type} {κ D R σ ο : Type} [Monad m] [Host m D R]

/-- Runs one execution under a handler, for at most `fuel` steps. -/
@[specialize]
def drive (resume : Resume m κ D R) (h : Handler m κ D R σ ο) : Nat → σ → Step κ D R → m ο
  | 0, _, _ => Host.fail .outOfFuel
  | fuel + 1, state, step =>
    match step with
    | .sample s k a d => do
      match ← h.sample state s k a d with
      | .deliver state value => do drive resume h fuel state (← resume k s value)
      | .finish outcome => pure outcome
    | .factor s k a score => do
      match ← h.factor state s k a score with
      | .deliver state value => do drive resume h fuel state (← resume k s value)
      | .finish outcome => pure outcome
    | .exit s value => h.exit state s value
    | .stray value => Host.fail (.inference (.strayResult value))

end ProbCore
