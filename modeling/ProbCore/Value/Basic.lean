import ProbCore.Marginal.Basic
import ProbCore.Tensor

/-! The values that programs compute with. -/

namespace ProbCore

/-- Truth values, integers and floats are three kinds of value, though they may compare
equal. A float may be no number; `undefined` is such a float given from outside, with a mark
by which it is known again. A dictionary keeps its entries in order of insertion. A `memo`
refers to a table of remembered results, a `function` to a definition of the program. -/
inductive Value where
  | absent
  | bool (b : Bool)
  | int (n : Int)
  | float (x : Float)
  | undefined (mark : Nat)
  | text (s : String)
  | list (items : List Value)
  | tuple (items : List Value)
  | dict (entries : List (Value × Value))
  | index (position : Value)
  | address (tokens : List Value)
  | tensor (t : Tensor)
  | marginal (m : Marginal Value Float)
  | memo (table : Nat) (name : String)
  | function (name : String)

instance : Inhabited Value := ⟨.absent⟩

namespace Value

/-- A number in one of its two exact forms; a truth value counts as 0 or 1. -/
inductive Number where
  | int (n : Int)
  | float (x : Float)

def number? : Value → Option Number
  | bool b => some (.int (if b then 1 else 0))
  | int n => some (.int n)
  | float x => some (.float x)
  | undefined _ => some (.float (0 / 0))
  | _ => none

/-- The integer that an integer or a truth value stands for. -/
def int? : Value → Option Int
  | bool b => some (if b then 1 else 0)
  | int n => some n
  | _ => none

/-- The sequences that can be walked by position. -/
def isSequence : Value → Bool
  | list _ | tuple _ | text _ => true
  | _ => false

def isCallable : Value → Bool
  | memo .. | function _ => true
  | _ => false

/-- Zero, the empty text, empty containers and the absent value are false. -/
def isTrue : Value → Bool
  | absent => false
  | bool b => b
  | int n => n != 0
  | float x => x != 0
  | text s => !s.isEmpty
  | list xs | tuple xs => !xs.isEmpty
  | dict es => !es.isEmpty
  | _ => true

end Value

end ProbCore
