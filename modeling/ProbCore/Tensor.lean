import ProbCore.Decimal.Binary

/-! Numeric arrays: a shape and the cells in row-major order. -/

namespace ProbCore

/-- The cells of an array, all of one kind. Real cells hold single-precision values. -/
inductive Cells where
  | reals (xs : List Float)
  | ints (ns : List Int)
  | flags (bs : List Bool)

structure Tensor where
  shape : List Nat
  cells : Cells

namespace Cells

def length : Cells → Nat
  | reals xs => xs.length
  | ints ns => ns.length
  | flags bs => bs.length

/-- The cells as numbers; a flag counts as 0 or 1. -/
def toFloats : Cells → List Float
  | reals xs => xs
  | ints ns => ns.map Float.ofInt
  | flags bs => bs.map fun b => if b then 1 else 0

protected def beq : Cells → Cells → Bool
  | ints a, ints b => a == b
  | flags a, flags b => a == b
  | a, b => a.toFloats == b.toFloats

instance : BEq Cells := ⟨Cells.beq⟩

end Cells

/-- A number as single precision keeps it: the nearest there is, or an infinity past the largest. -/
def single (x : Float) : Float :=
  match Decimal.Binary.ofFloat? x with
  | none => x
  | some b =>
    let kept := b.keptSingle
    if kept == 0 then Decimal.Binary.toFloat ⟨b.negative, 0, -1074⟩
    else if kept * Decimal.pow2 b.exponent.toNat ≥ Decimal.pow2 128 then
      if b.negative then -1 / 0 else 1 / 0
    else Decimal.Binary.toFloat { b with mantissa := kept }

namespace Tensor

protected def beq (a b : Tensor) : Bool := a.shape == b.shape && a.cells == b.cells

instance : BEq Tensor := ⟨Tensor.beq⟩

def size (shape : List Nat) : Nat := shape.foldl (· * ·) 1

/-- An array with every cell the same. -/
def fill (shape : List Nat) (x : Float) : Tensor :=
  ⟨shape, .reals (List.replicate (size shape) (single x))⟩

def ofFloats (shape : List Nat) (xs : List Float) : Tensor := ⟨shape, .reals (xs.map single)⟩

/-- Shapes agree from the last axis on, where an axis of length one stretches; missing axes
count as one. -/
def broadcastShape? (a b : List Nat) : Option (List Nat) :=
  (go a.reverse b.reverse).map List.reverse
where
  go : List Nat → List Nat → Option (List Nat)
    | [], ys => some ys
    | xs, [] => some xs
    | x :: xs, y :: ys =>
      if x == y || y == 1 then (go xs ys).map (x :: ·)
      else if x == 1 then (go xs ys).map (y :: ·)
      else none

/-- The cells of one array as its stretched copy in a wider shape lists them. -/
def stretch (shape wide : List Nat) (xs : Array Float) : List Float :=
  let padded := List.replicate (wide.length - shape.length) 1 ++ shape
  (List.range (size wide)).map fun i =>
    xs[position (padded.zip wide).reverse i 1 0]?.getD 0
where
  /-- The cell that stands at flat place `rest` of the wide shape. -/
  position : List (Nat × Nat) → Nat → Nat → Nat → Nat
    | [], _, _, found => found
    | (own, across) :: axes, rest, stride, found =>
      let along := if own == 1 then 0 else rest % across
      position axes (rest / across) (stride * own) (found + along * stride)

end Tensor

end ProbCore
