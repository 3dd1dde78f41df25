import ProbCore.Marginal.Grouping
import ProbCore.Random.Draws
import ProbCore.Table

/-! Questions to a marginal. -/

namespace ProbCore.Marginal

variable {R : Type} [Score R]

def scoreOf (key : Value.Key) : List (Value × R) → Except Failure R
  | [] => .ok Score.impossible
  | (v, lp) :: rest => do if (← v.key) == key then return lp else scoreOf key rest

/-- The log probability of a value, told apart by kind; impossible for values not found. -/
def score (m : Marginal Value R) (value : Value) : Except Failure R := do
  scoreOf (← value.key) (m.values.zip m.logProbs)

def prob (m : Marginal Value R) (value : Value) : Except Failure R := do
  return Score.exp (← m.score value)

/-- The probabilities by label. Values that share a label share an entry, and the last of
them is the one it shows. -/
def histogram (m : Marginal Value R) : Except Failure (Table Value R) :=
  (m.values.zip m.logProbs).foldlM
    (fun t (v, lp) => do return t.insert (← v.label) (Score.exp lp))
    ∅

private def greatest (best : Value × R) : List (Value × R) → Value × R
  | [] => best
  | x :: rest => greatest (if Score.less best.2 x.2 then x else best) rest

/-- The first of the most probable values, with its probability. -/
def mode (m : Marginal Value R) : Except Failure (Value × R) :=
  match m.values.zip m.logProbs with
  | [] => .error (.invalid .other)
  | x :: rest =>
    let (v, lp) := greatest x rest
    .ok (v, Score.exp lp)

/-- The mean of a function of the value. -/
def expectation (m : Marginal Value R) (f : Value → Except Failure R) : Except Failure R :=
  (m.values.zip m.logProbs).foldlM
    (fun sum (v, lp) => do return sum + Score.exp lp * (← f v))
    Score.zero

/-- The mean squared distance from the mean. -/
def variance (m : Marginal Value R) (f : Value → Except Failure R) : Except Failure R := do
  let mean ← m.expectation f
  m.expectation fun v => do
    let d := (← f v) - mean
    let square := d * d
    if Score.isFinite d && !Score.isFinite square && !Score.isNaN square then throw .overflow
    return square

/-- A value drawn with a key. -/
def draw (m : Marginal Value Float) (key : Random.Key) : Except Failure Value :=
  match key.categorical? m.logProbs with
  | some i =>
    match m.values[i]? with
    | some v => .ok v
    | none => .error .noSuchPosition
  | none => .error (.invalid .other)

end ProbCore.Marginal
