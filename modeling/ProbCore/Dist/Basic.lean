import ProbCore.Random.Threefry
import ProbCore.Value.Key
import ProbCore.Value.Convert
import ProbCore.Value.Arithmetic

/-! Distributions: a family with parameters, or a table of values with given densities. -/

namespace ProbCore

inductive Family where
  | flip | bernoulli | categorical | randomInteger | binomial | geometric | poisson | uniform
  | gaussian | beta | exponential | gamma
  deriving DecidableEq, Repr

namespace Family

/-- The families by the words that programs use. -/
def named : List (String × Family) :=
  [("flip", flip), ("bernoulli", bernoulli), ("categorical", categorical),
   ("random_integer", randomInteger), ("binomial", binomial), ("geometric", geometric),
   ("poisson", poisson), ("uniform", uniform), ("gaussian", gaussian), ("beta", beta),
   ("exponential", exponential), ("gamma", gamma)]

def ofWord? (word : String) : Option Family := named.lookup word

def title : Family → String
  | flip => "Flip"
  | bernoulli => "Bernoulli"
  | categorical => "Categorical"
  | randomInteger => "RandomInteger"
  | binomial => "Binomial"
  | geometric => "Geometric"
  | poisson => "Poisson"
  | uniform => "Uniform"
  | gaussian => "Gaussian"
  | beta => "Beta"
  | exponential => "Exponential"
  | gamma => "Gamma"

/-- Whether the values can be listed. -/
def enumerable : Family → Bool
  | flip | bernoulli | categorical | randomInteger | binomial => true
  | _ => false

/-- Whether draws are left to a library: they take rejection sampling, whose course this
project does not fix. -/
def sampledElsewhere : Family → Bool
  | binomial | poisson | beta | gamma => true
  | _ => false

end Family

/-- How a library draws from the families that are left to it. The cells of an array are drawn at
once with one key, from its shape and the parameters of each cell. -/
class Samplers where
  cells (family : Family) (shape : List Nat) (params : List (List Float)) (key : Random.Key) :
    Except Failure (List Float)

/-- Without a library nothing can be drawn from those families. -/
instance Samplers.none : Samplers := ⟨fun _ _ _ _ => .error .illTyped⟩

/-- Binding parameters to a family never fails; unsuited ones are found when the
distribution is asked for something. A family comes with the samplers it is drawn by. -/
inductive Dist where
  | standard [samplers : Samplers] (family : Family) (params : List Value)
  | table (name : String) (rows : List (Value × Float)) (enumerable : Bool)

namespace Dist

def name : Dist → String
  | standard family _ => family.title
  | table name _ _ => name

def enumerable : Dist → Bool
  | standard family _ => family.enumerable
  | table _ _ enumerable => enumerable

/-- The distribution as a literal. -/
def literal : Dist → String
  | standard family params => family.title ++ Value.tupleText (Value.literals params)
  | table name _ _ => name ++ "()"

private def counting (n : Int) : List Value := (List.range n.toNat).map fun (i : Nat) => .int i

/-- The values in the order in which they are tried. -/
def support : Dist → Except Failure (List Value)
  | table name rows enumerable =>
    if enumerable then .ok (rows.map (·.1)) else .error (.inference (.noSupport name))
  | standard family params =>
    match family, params with
    | .flip, [] | .flip, [_] => .ok [.bool true, .bool false]
    | .bernoulli, [_] => .ok [.int 0, .int 1]
    | .categorical, [probs] => do return counting (← probs.length)
    | .randomInteger, [n] =>
      match n.scalar.int? with
      | some n => .ok (counting n)
      | none => .error .illTyped
    | .binomial, [n, _] => do return counting ((← n.toInt) + 1)
    | .flip, _ | .bernoulli, _ | .categorical, _ | .randomInteger, _ | .binomial, _ =>
      .error .illTyped
    | _, _ => .error (.inference (.noSupport family.title))

end Dist

end ProbCore
