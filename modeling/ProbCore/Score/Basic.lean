import ProbCore.Special.LogOnePlus
import ProbCore.Decimal.Binary

/-! Arithmetic of log weights. Strategies are written over any type of scores; they run on
floats. -/

namespace ProbCore

/-- Scores add where probabilities multiply. `impossible` is the logarithm of zero, and a
score may be no number at all; comparisons with it are false. -/
class Score (R : Type) extends Add R, Sub R, Mul R, Div R, Neg R where
  ofNat : Nat → R
  impossible : R
  less : R → R → Bool
  same : R → R → Bool
  isNaN : R → Bool
  isFinite : R → Bool
  exp : R → R
  log : R → R
  logOnePlus : R → R
  floor : R → Int
  toFloat : R → Float

namespace Score

variable {R : Type} [Score R]

def zero : R := ofNat 0

def atMost (x y : R) : Bool := less x y || same x y

def isImpossible (x : R) : Bool := same x impossible

/-- The logarithm of a count. -/
def logNat (n : Nat) : R := log (ofNat n)

/-- The lesser of two, the first where they do not compare. -/
def least (x y : R) : R := if less y x then y else x

end Score

instance : Score Float where
  ofNat := Float.ofNat
  impossible := -1 / 0
  less x y := x < y
  same x y := x == y
  isNaN := Float.isNaN
  isFinite := Float.isFinite
  exp := Float.exp
  log := Float.log
  logOnePlus := Special.logOnePlus
  floor x := (Decimal.floor? x).getD 0
  toFloat x := x

end ProbCore
