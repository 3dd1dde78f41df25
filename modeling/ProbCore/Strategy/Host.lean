import ProbCore.Failure
import ProbCore.Notice
import ProbCore.Score.Basic
import ProbCore.Store

/-! What strategies ask of their surroundings: densities, random draws with the key of the
active strategy, and a place for reports. -/

namespace ProbCore

/-- Every draw takes a fresh key from the active strategy. Densities and supports are those
of the distributions that programs choose from. -/
class Host (m : Type → Type) (D R : outParam Type) where
  fail {α : Type} : Failure → m α
  note : Notice → m Unit
  /-- The outcome, or nothing if every particle of a population lost its weight. -/
  unlessDegenerate {α : Type} : m α → m (Option α)
  /-- Runs under an inner strategy with a fresh key of its own. -/
  nested {α : Type} : m α → m α
  enumerable : D → Bool
  support : D → m (List Value)
  logDensity : D → Value → m R
  draw : D → m Value
  /-- The logarithm of a uniform number. -/
  logUniform : m R
  /-- A uniform number below one. -/
  offset : m R
  /-- A uniform index below a positive count. -/
  indexBelow : Nat → m Nat
  /-- As many indices as asked for, each with probability in proportion to its weight. -/
  categorical : List R → Nat → m (List Nat)

namespace Host

variable {m : Type → Type} {D R : Type} [Monad m] [Host m D R]

/-- A pure computation that may fail. -/
@[inline]
def lift {α : Type} : Except Failure α → m α
  | .ok x => pure x
  | .error e => fail e

variable [Score R]

/-- Whether a value could have been drawn: it is listed, or has a finite log density where
values are not listed. -/
def accepts (d : D) (value : Value) : m Bool :=
  if enumerable m d then do return (← support d).contains value
  else do return Score.isFinite (← logDensity d value)

end Host

end ProbCore
