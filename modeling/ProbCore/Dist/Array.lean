import ProbCore.Value.Convert

/-! Parameters and values as arrays of numbers. -/

namespace ProbCore

/-- A shape and its cells in row-major order. -/
structure Numbers where
  shape : List Nat
  cells : List Float

namespace Numbers

def scalar (x : Float) : Numbers := ⟨[], [x]⟩

private def stack (rows : List Numbers) : Except Failure Numbers :=
  match rows with
  | [] => .ok ⟨[0], []⟩
  | first :: _ =>
    if rows.all (·.shape == first.shape) then
      .ok ⟨rows.length :: first.shape, (rows.map (·.cells)).flatten⟩
    else .error (.invalid .other)

mutual

/-- A number, or nested sequences of numbers of one shape, each cell converted. -/
def ofValue (convert : Value → Except Failure Float) : Value → Except Failure Numbers
  | .list xs | .tuple xs => do stack (← ofValues convert xs)
  | .tensor t =>
    match t.cells with
    | .reals xs => do return ⟨t.shape, ← xs.mapM fun x => convert (.float x)⟩
    | .ints ns => do return ⟨t.shape, ← ns.mapM fun n => convert (.int n)⟩
    | .flags bs => do return ⟨t.shape, ← bs.mapM fun b => convert (.bool b)⟩
  | v => do return scalar (← convert v)

def ofValues (convert : Value → Except Failure Float) : List Value → Except Failure (List Numbers)
  | [] => .ok []
  | x :: xs => do return (← ofValue convert x) :: (← ofValues convert xs)

end

/-- A cell in single precision. -/
def toSingle (v : Value) : Except Failure Float :=
  match v.number? with
  | some n => do return single (← n.toFloat)
  | none => .error .illTyped

/-- A cell as 0 or 1: anything but zero is 1. -/
def toFlag (v : Value) : Except Failure Float :=
  match v.number? with
  | some _ => .ok (if v.isTrue then 1 else 0)
  | none => .error .illTyped

/-- A cell as a word of 32 bits: floats lose their fraction, and what is out of range is
refused as an integer and least as a float. -/
def toWord (v : Value) : Except Failure Float :=
  match v.number? with
  | some (.int n) =>
    if -2147483648 ≤ n && n ≤ 2147483647 then .ok (Float.ofInt n) else .error .overflow
  | some (.float x) =>
    match Decimal.truncate? x with
    | some n => .ok (if -2147483648 ≤ n && n ≤ 2147483647 then Float.ofInt n else -2147483648)
    | none => .ok (-2147483648)
  | none => .error .illTyped

/-- The shape that several arrays stretch to. -/
def commonShape (arrays : List Numbers) : Except Failure (List Nat) :=
  arrays.foldlM
    (fun shape a =>
      match Tensor.broadcastShape? shape a.shape with
      | some wide => .ok wide
      | none => .error (.invalid .other))
    []

/-- The cells of an array stretched to a shape. -/
def stretched (a : Numbers) (shape : List Nat) : List Float :=
  if a.shape == shape then a.cells else Tensor.stretch a.shape shape a.cells.toArray

/-- The rows of stretched arrays: entry `i` lists the `i`-th cell of each. -/
def rows (arrays : List Numbers) (shape : List Nat) : List (List Float) :=
  let columns := arrays.map fun a => (a.stretched shape).toArray
  (List.range (Tensor.size shape)).map fun i => columns.map fun column => column[i]?.getD 0

end Numbers

end ProbCore
