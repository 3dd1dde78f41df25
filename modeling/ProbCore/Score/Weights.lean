import ProbCore.Score.Basic
import ProbCore.Failure

/-! Collections of log weights: their total, how evenly it is spread, and evenly spaced
resampling. -/

namespace ProbCore.Score

variable {R : Type} [Score R]

/-- The logarithm of the sum of two weights, taken from the greater one. -/
def logAddExp (x y : R) : R :=
  if same x y then x + logNat 2
  else
    let gap := x - y
    if less zero gap then x + logOnePlus (exp (-gap))
    else if atMost gap zero then y + logOnePlus (exp gap)
    else gap

/-- The logarithm of the summed weights; impossible for none. -/
def logSumExp : List R → R
  | [] => impossible
  | w :: ws => ws.foldl logAddExp w

def sum (xs : List R) : R := xs.foldl (· + ·) zero

/-- The weights as shares of their total. -/
def shares (weights : List R) : List R :=
  let total := logSumExp weights
  weights.map fun w => exp (w - total)

/-- How many equal weights would carry as much information. -/
def effectiveSize (weights : List R) : R :=
  ofNat 1 / sum ((shares weights).map fun p => p * p)

/-- Running sums. -/
def cumulative (xs : List R) : List R :=
  match xs with
  | [] => []
  | x :: rest => go x rest
where
  go (acc : R) : List R → List R
    | [] => [acc]
    | y :: rest => acc :: go (acc + y) rest

/-- The first position whose running sum exceeds the given point; the last if none does. -/
def locate (sums : List R) (point : R) : Nat :=
  min (go sums) (sums.length - 1)
where
  go : List R → Nat
    | [] => 0
    | c :: rest => if less point c || isNaN c then 0 else go rest + 1

/-- `n` evenly spaced points, shifted by one common offset below the spacing, each sent to
the share it falls in. Without weights there is nothing to select. -/
def systematic (weights : List R) (offset : R) (n : Nat) : Except Failure (List Nat) :=
  let sums := cumulative (shares weights)
  match sums.getLast? with
  | none => .error .noSuchPosition
  | some last =>
    let sums := sums.map (· / last)
    .ok ((List.range n).map fun i => locate sums ((ofNat i + offset) / ofNat n))

end ProbCore.Score
