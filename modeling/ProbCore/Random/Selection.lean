import ProbCore.Random.Draws
import ProbCore.Score.Resampling

/-! Members of a weighted population, selected with a key. -/

namespace ProbCore.Random.Key

/-- Independent indices, one for each row of noise. An empty population has no members to select,
not even none of them. -/
def selectNoisy (noise : Nat → Float) (weights : List Float) (n : Nat) : Except Failure (List Nat) :=
  if weights.isEmpty then .error (.invalid .other)
  else
    match (List.range n).mapM (noisiest? noise weights) with
    | some indices => .ok indices
    | none => .error (.invalid .other)

/-- Independent indices, each with probability in proportion to its weight. -/
def multinomial (key : Key) (weights : List Float) (n : Nat) : Except Failure (List Nat) :=
  selectNoisy key.gumbel weights n

def select (key : Key) (method : Resampling) (weights : List Float) (n : Nat) :
    Except Failure (List Nat) :=
  match method with
  | .multinomial => key.multinomial weights n
  | .systematic => Score.systematic weights (key.uniform 0) n

/-- The same by the name of the method. -/
def selectBy (key : Key) (method : String) (weights : List Float) (n : Nat) :
    Except Failure (List Nat) :=
  match Resampling.words.lookup method with
  | some r => key.select r weights n
  | none => .error (.configuration (.noSuchResampling (.text method)))

end ProbCore.Random.Key
