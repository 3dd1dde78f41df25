import ProbCore.Score.Weights

/-! The ways to select members of a weighted population. -/

namespace ProbCore

/-- Independent draws, or evenly spaced points with one common offset. -/
inductive Resampling where
  | multinomial | systematic
  deriving DecidableEq, Repr

namespace Resampling

def words : List (String × Resampling) :=
  [("multinomial", .multinomial), ("systematic", .systematic)]

end Resampling

end ProbCore
