import ProbCore.Random.Threefry
import ProbCore.Special.NormalQuantile
import ProbCore.Tensor

/-! Numbers drawn with a key. Element `i` of an array drawn at once is number `i`; a single
number is number 0. Where it is said, a result is rounded to single precision. -/

namespace ProbCore.Random.Key

/-- Uniform on the multiples of `2^-23` in `[0, 1)`. -/
def uniform (key : Key) (i : Nat) : Float := (key.bits i >>> 9).toNat.toFloat / 8388608

private def tiny : Float := Float.scaleB 1 (-126)

/-- The same with the least normal number in place of zero, so that its logarithm is finite. -/
def positiveUniform (key : Key) (i : Nat) : Float :=
  let x := single (key.uniform i + tiny)
  if x < tiny then tiny else x

/-- Uniform below `n`, from two words so that large `n` is served evenly. -/
def below (key : Key) (n : Nat) : Nat :=
  let n := n.toUInt32
  let (a, b) := key.split
  let m := (65536 : UInt32) % n
  let m := (m * m) % n
  (((a.bits 0 % n) * m + b.bits 0 % n) % n).toNat

/-- The standard normal distribution, in single precision. -/
def normal (key : Key) (i : Nat) : Float :=
  single (Special.normalQuantile (key.uniform i + Float.scaleB 1 (-25)))

def gumbel (key : Key) (i : Nat) : Float :=
  single (-(single (-(key.positiveUniform i).log)).log)

/-- The logarithm of a uniform number. -/
def logUniform (key : Key) : Float :=
  let u := key.uniform 0
  if u > 0 then u.log else -1 / 0

/-- The first of the greatest entries, where NaN counts as greatest. -/
def argmax? (xs : List Float) : Option Nat :=
  match xs with
  | [] => none
  | x :: rest => some (scan rest 1 x 0)
where
  scan : List Float → Nat → Float → Nat → Nat
    | [], _, _, place => place
    | x :: rest, i, best, place =>
      if x > best || (x.isNaN && !best.isNaN) then scan rest (i + 1) x i
      else scan rest (i + 1) best place

/-- The index of the greatest entry once each has its noise, in single precision; row `row` of
several such draws made at once. `none` without entries. -/
def noisiest? (noise : Nat → Float) (logits : List Float) (row : Nat) : Option Nat :=
  let width := logits.length
  argmax? (logits.zipIdx.map fun (l, j) => single (noise (row * width + j) + single l))

/-- An index with probability proportional to the exponential of its entry. -/
def categoricalRow? (key : Key) (logits : List Float) (row : Nat) : Option Nat :=
  noisiest? key.gumbel logits row

def categorical? (key : Key) (logits : List Float) : Option Nat := key.categoricalRow? logits 0

end ProbCore.Random.Key
