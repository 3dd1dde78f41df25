import ProbCore.Failure
import ProbCore.Decimal.Reading

/-! Values read as numbers: by kind, from text, and from arrays without axes. -/

namespace ProbCore.Value

/-- A number as a float. An integer past the largest double has none. -/
def Number.toFloat : Number → Except Failure Float
  | .float x => .ok x
  | .int n =>
    let x := Decimal.nearestInt n
    if x.isFinite then .ok x else .error .overflow

private def soleCell? (t : Tensor) : Option Value :=
  if !t.shape.isEmpty then none
  else
    match t.cells with
    | .reals (x :: _) => some (.float x)
    | .ints (n :: _) => some (.int n)
    | .flags (b :: _) => some (.bool b)
    | _ => none

/-- An array without axes stands for its cell. -/
def scalar (v : Value) : Value :=
  match v with
  | tensor t => (soleCell? t).getD v
  | _ => v

def toFloat (v : Value) : Except Failure Float :=
  match v.scalar with
  | text s =>
    match Decimal.float? s with
    | some x => .ok x
    | none => .error (.invalid (.notAFloat s))
  | w =>
    match w.number? with
    | some n => n.toFloat
    | none => .error .illTyped

/-- The part of a number before its point. -/
def toInt (v : Value) : Except Failure Int :=
  match v.scalar with
  | text s =>
    match Decimal.int? s with
    | some n => .ok n
    | none => .error (.invalid (.notAnInt s))
  | float x =>
    match Decimal.truncate? x with
    | some n => .ok n
    | none => .error (if x.isNaN then .invalid .nanToInt else .overflow)
  | undefined _ => .error (.invalid .nanToInt)
  | w =>
    match w.int? with
    | some n => .ok n
    | none => .error .illTyped

end ProbCore.Value
