import ProbCore.Strategy.Step
import ProbCore.Strategy.Frontier
import ProbCore.Marginal.Grouping

/-! Exhaustive search. Every choice forks the execution once for each value that it may take;
the traversal decides which fork goes on. Each complete execution counts with the mass of its
choices and factors. -/

namespace ProbCore.Enumeration

/-- How to search, and after how many complete executions to stop. -/
structure Config where
  traversal : Traversal
  most : Option Nat

/-- The search so far: branches left, score of the current execution, and the completed
executions, latest first. -/
structure Search (κ R : Type) where
  frontier : Frontier κ R
  score : R
  found : List (Value × R)
  count : Nat

variable {m : Type → Type} {κ D R : Type} [Monad m] [Host m D R] [Score R]

/-- The branches of a choice that have any mass. -/
def fork (d : D) (k : κ) (s : Store) (score : R) : List Value → m (List (Branch κ R))
  | [] => pure []
  | v :: vs => do
    let lp ← Host.logDensity d v
    let rest ← fork d k s score vs
    return if Score.isImpossible lp then rest else ⟨k, s, v, score + lp⟩ :: rest

@[specialize]
def handler : Handler m κ D R (Search κ R) (Search κ R) where
  sample st s k _ d := do
    let branches ← fork d k s st.score (← Host.support d)
    return .finish { st with frontier := st.frontier.pushAll branches }
  factor st _ _ _ x := do
    let score := st.score + x
    if Score.isImpossible score || Score.isNaN score then return .finish { st with score }
    else return .deliver { st with score } .absent
  exit st _ value :=
    pure { st with found := (value, st.score) :: st.found, count := st.count + 1 }

def Search.exhausted (c : Config) (st : Search κ R) : Bool :=
  (match c.most with
    | some n => n ≤ st.count
    | none => false) || st.frontier.size == 0

/-- Explores branches until none is left or enough executions are complete. -/
@[specialize]
def explore (resume : Resume m κ D R) (c : Config) (steps : Nat) :
    Nat → Search κ R → m (Search κ R)
  | 0, _ => Host.fail .outOfFuel
  | fuel + 1, st =>
    if st.exhausted c then pure st
    else
      match st.frontier.pop? with
      | none => pure st
      | some (b, frontier) => do
        let step ← resume b.k b.store b.value
        explore resume c steps fuel
          (← drive resume handler steps { st with frontier, score := b.score } step)

/-- The completed executions, in order, with their scores. -/
@[specialize]
def search (resume : Resume m κ D R) (fuel : Nat) (c : Config) (entry : κ) (s : Store) :
    m (Search κ R) := do
  let st : Search κ R := ⟨.empty c.traversal, Score.zero, [], 0⟩
  let step ← resume entry s .absent
  explore resume c fuel fuel (← drive resume handler fuel st step)

@[specialize]
def estimate (resume : Resume m κ D R) (fuel : Nat) (c : Config) (entry : κ) (s : Store) :
    m (Marginal Value R) := do
  let st ← search resume fuel c entry s
  if st.count == 0 then Host.fail (.inference .nothingFound)
  else
    Host.note (.enumerated st.count st.frontier.size)
    let found := st.found.reverse
    let scores := found.map (·.2)
    Host.lift (Marginal.ofLogWeights (found.map (·.1)) scores (some (Score.logSumExp scores)) []
      [("executions", .count st.count)])

end ProbCore.Enumeration
