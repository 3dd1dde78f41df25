import ProbCore.Value.Basic
import ProbCore.Decimal.Binary

/-! Equality across kinds of value, and which values can be keys. -/

namespace ProbCore.Value

/-- Numbers are equal when they are the same real number; NaN equals nothing. -/
def Number.beq : Number → Number → Bool
  | .int a, .int b => a == b
  | .float a, .float b => a == b
  | .int a, .float b | .float b, .int a => Decimal.compareInt? a b == some .eq

def sameMeasure : Measure Float → Measure Float → Bool
  | .count a, .count b => a == b
  | .rate a, .rate b => a == b
  | .count a, .rate b | .rate b, .count a => Decimal.compareInt? a b == some .eq

private def sameDiagnostics (a b : List (String × Measure Float)) : Bool :=
  a.length == b.length && a.all fun (name, x) => b.any fun (other, y) => name == other && sameMeasure x y

mutual

/-- Whether two values are the same to a container. Numbers and truth values compare by what
they stand for, undefined floats by their marks; all else compares within its kind, part by
part, and dictionaries whatever their order. A computed float that is no number has no mark. It
equals nothing, even where one and the same computed value is met twice, so that an
implementation that looks at identity first finds it again and this comparison does not. -/
protected def beq : Value → Value → Bool
  | absent, absent => true
  | bool a, bool b => a == b
  | bool a, int b => Number.beq (.int (if a then 1 else 0)) (.int b)
  | bool a, float b => Number.beq (.int (if a then 1 else 0)) (.float b)
  | int a, bool b => Number.beq (.int a) (.int (if b then 1 else 0))
  | int a, int b => a == b
  | int a, float b => Number.beq (.int a) (.float b)
  | float a, bool b => Number.beq (.float a) (.int (if b then 1 else 0))
  | float a, int b => Number.beq (.float a) (.int b)
  | float a, float b => a == b
  | undefined a, undefined b => a == b
  | text a, text b => a == b
  | list a, list b => beqItems a b
  | tuple a, tuple b => beqItems a b
  | dict a, dict b => a.length == b.length && beqEntries a b
  | index a, index b => Value.beq a b
  | address a, address b => beqItems a b
  | tensor a, tensor b => a == b
  | marginal a, marginal b => beqMarginal a b
  | memo a _, memo b _ => a == b
  | function a, function b => a == b
  | _, _ => false

def beqItems : List Value → List Value → Bool
  | [], [] => true
  | a :: as, b :: bs => Value.beq a b && beqItems as bs
  | _, _ => false

/-- Every entry of the first list has an equal one in the second. -/
def beqEntries : List (Value × Value) → List (Value × Value) → Bool
  | [], _ => true
  | (k, v) :: rest, other =>
    other.any (fun (k', v') => Value.beq k k' && Value.beq v v') && beqEntries rest other

def beqMarginal : Marginal Value Float → Marginal Value Float → Bool
  | ⟨values, logProbs, normalization, samples, diagnostics⟩, other =>
    beqItems values other.values && logProbs == other.logProbs
      && normalization == other.normalization && beqItems samples other.samples
      && sameDiagnostics diagnostics other.diagnostics

end

instance : BEq Value := ⟨Value.beq⟩

/-- Equality as programs test it: a float that is no number equals nothing, itself
included. -/
def equals : Value → Value → Bool
  | undefined _, undefined _ => false
  | a, b => a == b

mutual

/-- Whether a value can be a key: no part of it can change or grow. -/
def isHashable : Value → Bool
  | list _ | dict _ | tensor _ | marginal _ | memo .. => false
  | tuple xs | address xs => allHashable xs
  | index x => isHashable x
  | _ => true

def allHashable : List Value → Bool
  | [] => true
  | x :: xs => isHashable x && allHashable xs

end

end ProbCore.Value
