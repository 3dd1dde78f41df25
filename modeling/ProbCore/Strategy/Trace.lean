import ProbCore.Score.Basic
import ProbCore.Store

/-! Recorded executions. A trace keeps, for every random choice, the suspended rest and the
totals just before it, so that the execution can be taken up again from there. -/

namespace ProbCore

/-- One random choice: what was chosen, and the score, prior and number of factors before
it. -/
structure Choice (κ D R : Type) where
  address : Address
  dist : D
  value : Value
  logDensity : R
  k : κ
  store : Store
  score : R
  prior : R
  factors : Nat

/-- How a recorded execution stands: complete with its value, or suspended at a factor. -/
inductive Ending (κ : Type) where
  | done (value : Value)
  | suspended (k : κ)

/-- An execution in order of its choices. `score` adds up choices and factors, `prior` the
choices alone. -/
structure Trace (κ D R : Type) where
  choices : List (Choice κ D R)
  score : R
  prior : R
  factors : Nat
  store : Store
  ending : Ending κ

namespace Trace

variable {κ D R : Type}

/-- Nothing has run yet. -/
def start [Score R] (entry : κ) (s : Store) : Trace κ D R :=
  ⟨[], Score.zero, Score.zero, 0, s, .suspended entry⟩

def done (t : Trace κ D R) : Bool :=
  match t.ending with
  | .done _ => true
  | .suspended _ => false

/-- The value of a complete execution. -/
def value? (t : Trace κ D R) : Option Value :=
  match t.ending with
  | .done v => some v
  | .suspended _ => none

def likelihood [Sub R] (t : Trace κ D R) : R := t.score - t.prior

/-- The first choice made at an address. -/
def choiceAt? (t : Trace κ D R) (a : Address) : Option (Choice κ D R) :=
  t.choices.find? (·.address == a)

/-- The choices by address, the first where an address comes twice. -/
def byAddress (t : Trace κ D R) : List (Choice κ D R) :=
  t.choices.foldl
    (fun table c => if table.any (·.address == c.address) then table else table ++ [c])
    []

end Trace

end ProbCore
