import ProbCore.Value.Convert
import ProbCore.Value.Order
import ProbCore.Special.LogOnePlus

/-! Operators on values: numbers of either exact form, and the joining and repeating of
sequences. -/

namespace ProbCore.Value

/-- Integers stay exact; with a float on either side both are floats. -/
private def onNumbers (onInts : Int → Int → Except Failure Value)
    (onFloats : Float → Float → Except Failure Value) (a b : Value) : Except Failure Value :=
  match a.scalar.number?, b.scalar.number? with
  | some (.int m), some (.int n) => onInts m n
  | some x, some y => do onFloats (← x.toFloat) (← y.toFloat)
  | _, _ => .error .illTyped

private def sequenceRepeat (a b : Value) : Option Value :=
  let times := fun (v n : Value) =>
    match v, n.int? with
    | text s, some n => some (text (String.join (List.replicate n.toNat s)))
    | tuple xs, some n => some (tuple (List.replicate n.toNat xs).flatten)
    | list xs, some n => some (list (List.replicate n.toNat xs).flatten)
    | _, _ => none
  times a b <|> times b a

def add (a b : Value) : Except Failure Value :=
  match a, b with
  | text s, text t => .ok (text (s ++ t))
  | tuple xs, tuple ys => .ok (tuple (xs ++ ys))
  | list xs, list ys => .ok (list (xs ++ ys))
  | _, _ => onNumbers (fun m n => .ok (int (m + n))) (fun x y => .ok (float (x + y))) a b

def sub : Value → Value → Except Failure Value :=
  onNumbers (fun m n => .ok (int (m - n))) (fun x y => .ok (float (x - y)))

def mul (a b : Value) : Except Failure Value :=
  match sequenceRepeat a b with
  | some v => .ok v
  | none => onNumbers (fun m n => .ok (int (m * n))) (fun x y => .ok (float (x * y))) a b

/-- The quotient of integers is rounded once, from its exact value. -/
def div : Value → Value → Except Failure Value :=
  onNumbers
    (fun m n =>
      if n == 0 then .error .divisionByZero
      else
        let x := Decimal.nearestQuotient m.natAbs n.natAbs
        if !x.isFinite then .error .overflow
        else .ok (float (if (m < 0) != (n < 0) then -x else x)))
    (fun x y => if y == 0 then .error .divisionByZero else .ok (float (x / y)))

/-- The remainder of doubles, computed exactly, with the sign of the first. -/
def floatRemainder (x y : Float) : Float :=
  match Decimal.Binary.ofFloat? x, Decimal.Binary.ofFloat? y with
  | some a, some b =>
    let e := min a.exponent b.exponent
    let scaled := fun (c : Decimal.Binary) => c.mantissa * Decimal.pow2 (c.exponent - e).toNat
    let r := (Float.ofNat (scaled a % scaled b)).scaleB e
    if a.negative then -r else r
  | some _, none => if y.isNaN then y else x
  | none, _ => 0 / 0

private def isNegative (x : Float) : Bool := x < 0 || (x == 0 && 1 / x < 0)

/-- Floor and remainder, where the remainder has the sign of the divisor. -/
private def floorParts (x y : Float) : Float × Float :=
  let r := floatRemainder x y
  let q := (x - r) / y
  let (q, r) :=
    if r == 0 then (q, if isNegative y then -0.0 else 0)
    else if (y < 0) != (r < 0) then (q - 1, r + y)
    else (q, r)
  if q == 0 then (if isNegative (x / y) then -0.0 else 0, r)
  else
    let f := q.floor
    (if q - f > 0.5 then f + 1 else f, r)

def floorDiv : Value → Value → Except Failure Value :=
  onNumbers
    (fun m n => if n == 0 then .error .divisionByZero else .ok (int (m.fdiv n)))
    (fun x y => if y == 0 then .error .divisionByZero else .ok (float (floorParts x y).1))

def modulo : Value → Value → Except Failure Value :=
  onNumbers
    (fun m n => if n == 0 then .error .divisionByZero else .ok (int (m.fmod n)))
    (fun x y => if y == 0 then .error .divisionByZero else .ok (float (floorParts x y).2))

def neg (v : Value) : Except Failure Value :=
  match v.scalar.number? with
  | some (.int n) => .ok (int (-n))
  | some (.float x) => .ok (float (-x))
  | none => .error .illTyped

def compare (op : Comparison) (a b : Value) : Except Failure Bool :=
  match compareBy? op a.scalar b.scalar with
  | some holds => .ok holds
  | none => .error .illTyped

/-- The items that a walk over the value meets. -/
def items? : Value → Option (List Value)
  | list xs | tuple xs => some xs
  | text s => some (s.toList.map fun c => text c.toString)
  | dict es => some (es.map (·.1))
  | tensor ⟨n :: inner, cells⟩ =>
    let step := Tensor.size inner
    some ((List.range n).map fun i => tensor ⟨inner, slice cells (i * step) step⟩)
  | _ => none
where
  slice (cells : Cells) (start count : Nat) : Cells :=
    match cells with
    | .reals xs => .reals ((xs.drop start).take count)
    | .ints ns => .ints ((ns.drop start).take count)
    | .flags bs => .flags ((bs.drop start).take count)

def length (v : Value) : Except Failure Nat :=
  match v with
  | text s => .ok s.length
  | list xs | tuple xs => .ok xs.length
  | dict es => .ok es.length
  | tensor ⟨n :: _, _⟩ => .ok n
  | _ => .error .illTyped

/-- The sum of the items, from the integer zero. -/
def total (v : Value) : Except Failure Value :=
  match v.items? with
  | some xs => xs.foldlM add (int 0)
  | none => .error .illTyped

/-- A position counted from the start, or back from the end when negative. -/
def atPosition? (xs : List Value) (i : Int) : Option Value :=
  if 0 ≤ i then xs[i.toNat]? else if -i ≤ xs.length then xs[xs.length - (-i).toNat]? else none

/-- One item: by position in a sequence, by key in a dictionary. Positions past the ends of
an array stop at its ends. -/
def item (v i : Value) : Except Failure Value :=
  match v with
  | dict es =>
    if !i.isHashable then .error .illTyped
    else
      match es.find? (·.1 == i) with
      | some (_, x) => .ok x
      | none => .error .unknownName
  | tensor t =>
    match t.shape, (tensor t).items?, i.scalar.int? with
    | n :: _, some rows, some k =>
      let k := if k < 0 then max 0 (k + n) else min k (n - 1)
      match rows[k.toNat]? with
      | some row => .ok row
      | none => .error .noSuchPosition
    | _, _, _ => .error .illTyped
  | list _ | tuple _ | text _ =>
    match v.items?, i.scalar.int? with
    | some xs, some k =>
      match atPosition? xs k with
      | some x => .ok x
      | none => .error .noSuchPosition
    | _, _ => .error .illTyped
  | _ => .error .illTyped

/-- The natural logarithm; impossible at zero, refused below it. Integers past the largest
double are divided by a power of two first. -/
def log (v : Value) : Except Failure Value :=
  match v.scalar.number? with
  | some (.int n) =>
    if n < 0 then .error (.invalid .other)
    else
      let shift := n.natAbs.log2 - 900
      let rest := Decimal.nearestQuotient n.natAbs (Decimal.pow2 shift)
      .ok (float (rest.log + shift.toFloat * Float.log 2))
  | some (.float x) => if x < 0 then .error (.invalid .other) else .ok (float x.log)
  | none => .error .illTyped

def exp (v : Value) : Except Failure Value :=
  match v.scalar.number? with
  | some n => do
    let x ← n.toFloat
    let y := x.exp
    if x.isFinite && !y.isFinite then throw .overflow else return float y
  | none => .error .illTyped

end ProbCore.Value
