import ProbCore.Dist.Density
import ProbCore.Random.Draws

/-! Drawing from distributions. -/

namespace ProbCore.Dist

private def quiet {α : Type} (x : Option α) : Except Failure α :=
  match x with
  | some v => .ok v
  | none => .error (.invalid .other)

/-- A cell of a scalar family that is not left to a library, from number `i` of the stream. -/
private def cell (family : Family) (params : List Float) (key : Random.Key) (i : Nat) :
    Except Failure Float :=
  match family, params with
  | .flip, [p] | .bernoulli, [p] => .ok (if key.uniform i < p then 1 else 0)
  | .geometric, [p] =>
    .ok (single (single (key.positiveUniform i).log / single (Special.logOnePlus (-p)))).floor
  | .uniform, [low, high] => .ok (single (low + (high - low) * key.uniform i))
  | .gaussian, [mean, sd] => .ok (single (key.normal i * sd + mean))
  | .exponential, [r] => .ok (single (-(key.positiveUniform i).log / r))
  | _, _ => .error .illTyped

/-- The cells of an array, from the parameters of each. -/
private def cells [Samplers] (family : Family) (shape : List Nat) (rows : List (List Float))
    (key : Random.Key) : Except Failure (List Float) :=
  if family.sampledElsewhere then Samplers.cells family shape rows key
  else rows.zipIdx.mapM fun (row, i) => cell family row key i

private def toWhole (x : Float) : Except Failure Value := do return .int (← (Value.float x).toInt)

/-- One number as a value of the family's kind. -/
private def wrap (family : Family) (x : Float) : Except Failure Value :=
  match family with
  | .flip => .ok (.bool (x != 0))
  | .bernoulli => .ok (.int (if x != 0 then 1 else 0))
  | .binomial | .geometric | .poisson => toWhole x
  | _ => .ok (.float x)

private def wrapAll (family : Family) (shape : List Nat) (xs : List Float) : Except Failure Value :=
  match family, xs with
  | .flip, _ => .ok (.tensor ⟨shape, .flags (xs.map (· != 0))⟩)
  | .bernoulli, _ => .ok (.tensor ⟨shape, .ints (xs.map fun x => if x != 0 then 1 else 0)⟩)
  | .binomial, [x] | .geometric, [x] | .poisson, [x] => toWhole x
  | .binomial, _ | .geometric, _ | .poisson, _ => .error (.invalid .other)
  | _, _ => .ok (.tensor ⟨shape, .reals xs⟩)

private def drawCategory (probs : Numbers) (key : Random.Key) : Except Failure Value := do
  let (_, rows) ← weightRows probs
  match rows.toList with
  | [row] => do return .int (← quiet (key.categorical? (row.map Float.log)))
  | _ => throw (.invalid .other)

/-- A value drawn with a key; the same key always draws the same value. -/
def draw (d : Dist) (key : Random.Key) : Except Failure Value :=
  match d with
  | table _ rows _ =>
    if rows.isEmpty then .error .noSuchPosition
    else
      match rows[key.below rows.length]? with
      | some row => .ok row.1
      | none => .error .noSuchPosition
  | standard .randomInteger params => do
    let n ← outcomes params
    return .int (← quiet (key.categorical? (List.replicate n 0)))
  | standard .categorical params => do
    match ← arrays .categorical params with
    | [probs] => drawCategory probs key
    | _ => throw .illTyped
  | standard family params => do
    let params ← arrays family params
    let shape ← Numbers.commonShape params
    let cells ← cells family shape (Numbers.rows params shape) key
    match shape, cells with
    | [], [x] => wrap family x
    | _, _ => wrapAll family shape cells

end ProbCore.Dist
