import ProbCore.Address
import ProbCore.Value.Literal

/-! Why a computation fails. Each cause keeps what its message tells. -/

namespace ProbCore

/-- Options and settings that a strategy or a primitive cannot run with. -/
inductive ConfigurationFault where
  | missingKey (strategy : String)
  | belowOne (option : String) (given : Value)
  | negative (option : String) (given : Value)
  | fewerAttemptsThanSamples (attempts samples : Value)
  | unknownTraversal (given : Value) (known : List String)
  | unknownResampling (given : Value) (known : List String)
  | noSuchResampling (given : Value)
  | unknownMethod (given : String) (known : List String)
  | positiveFactor (score : Float) (address : Address)
  | scoreAboveBound (score : Float) (bound : Value)
  | batchSize (size : Nat) (given : Value)

/-- Ways in which an inference ends without an answer, or a program breaks its rules. -/
inductive InferenceFault where
  | noStrategy
  | strayResult (value : Value)
  | noSupport (family : String)
  | nothingFound
  | tooFewAccepted (accepted : Nat) (samples attempts : Value)
  | noStart (attempts : Value)
  | suspended
  | noMass
  | noSurvivingStart (attempts : Value)
  | rootsExhausted (finished : Nat) (particles : Value) (roots : Nat)
  | notIndices (given : Value)
  | indexOutside (position : Int) (size : Nat)

/-- Values of the right kind that are still unsuitable. -/
inductive ValueFault where
  | notBelow (address base : Address)
  | lengthMismatch
  | notAFloat (text : String)
  | notAnInt (text : String)
  | nanToInt
  | raised (text : String)
  | other

inductive Failure where
  | configuration (fault : ConfigurationFault)
  | inference (fault : InferenceFault)
  | degenerate
  | invalid (fault : ValueFault)
  | unknownName
  | illTyped
  | noSuchPosition
  | divisionByZero
  | overflow
  | noSuchFile
  | malformedData
  | noSuchQuery
  | outOfFuel

private def textList (names : List String) : List String := names.map Text.literal

def ConfigurationFault.message : ConfigurationFault → String
  | missingKey strategy =>
    strategy ++ " needs a PRNG key; pass " ++ tick ++ "key=jax.random.key(...)" ++ tick ++ "."
  | belowOne option given => option ++ " must be at least 1, got " ++ given.display ++ "."
  | negative option given => option ++ " must be non-negative, got " ++ given.display ++ "."
  | fewerAttemptsThanSamples attempts samples =>
    "max_attempts (" ++ attempts.display ++ ") is smaller than samples (" ++ samples.display ++ ")."
  | unknownTraversal given known =>
    "Unknown enumeration strategy " ++ given.literal ++ "; expected one of "
      ++ Value.tupleText (textList known) ++ "."
  | unknownResampling given known =>
    "Unknown resampling method " ++ given.literal ++ "; expected one of "
      ++ Value.tupleText (textList known) ++ "."
  | noSuchResampling given => "Unknown resampling method: " ++ given.display
  | unknownMethod given known =>
    "Unknown inference method " ++ Text.literal given ++ "; expected one of ["
      ++ String.intercalate ", " (textList known) ++ "]."
  | positiveFactor score address =>
    "Incremental rejection requires factors <= 0, got " ++ Value.floatLiteral score ++ " at "
      ++ address.text ++ "."
  | scoreAboveBound score bound =>
    "Score " ++ Value.floatLiteral score ++ " exceeded max_score " ++ bound.display
      ++ "; raise max_score."
  | batchSize size given =>
    "batch_size must be in 1.." ++ toString size ++ ", got " ++ given.display ++ "."
where
  tick : String := (Char.ofNat 96).toString

def InferenceFault.message : InferenceFault → String
  | noStrategy =>
    "No inference strategy is active; random primitives must run inside " ++ tick ++ "infer"
      ++ tick ++ "."
  | strayResult value =>
    "Program returned " ++ value.literal ++ " without reaching its final continuation."
  | noSupport family => family ++ " has no enumerable support."
  | nothingFound => "Enumerate found no execution with nonzero probability."
  | tooFewAccepted accepted samples attempts =>
    "Rejection accepted " ++ toString accepted ++ " of " ++ samples.display ++ " samples in "
      ++ attempts.display ++ " attempts."
  | noStart attempts =>
    "No execution with nonzero probability found in " ++ attempts.display ++ " attempts."
  | suspended => "The trace is suspended and has no value yet."
  | noMass => "The marginal has no probability mass."
  | noSurvivingStart attempts =>
    "No initial prefix with a surviving particle found in " ++ attempts.display ++ " attempts."
  | rootsExhausted finished particles roots =>
    "AsyncPF finished " ++ toString finished ++ " of " ++ particles.display ++ " particles from "
      ++ toString roots ++ " roots."
  | notIndices given =>
    "map_data_fetch must return a list of indices, got " ++ given.literal ++ "."
  | indexOutside position size =>
    "map_data_fetch returned index " ++ toString position ++ " outside a data set of size "
      ++ toString size ++ "."
where
  tick : String := (Char.ofNat 96).toString

/-- The text of a fault, where it has one of its own. -/
def ValueFault.message? : ValueFault → Option String
  | notBelow address base => some (address.text ++ " does not extend " ++ base.text)
  | lengthMismatch => some "values and log_weights must have the same length."
  | notAFloat text => some ("could not convert string to float: " ++ Text.literal text)
  | notAnInt text => some ("invalid literal for int() with base 10: " ++ Text.literal text)
  | nanToInt => some "cannot convert float NaN to integer"
  | raised text => some text
  | other => none

def Failure.message? : Failure → Option String
  | configuration fault => some fault.message
  | inference fault => some fault.message
  | degenerate => some "Every particle has zero weight."
  | invalid fault => fault.message?
  | _ => none

end ProbCore
