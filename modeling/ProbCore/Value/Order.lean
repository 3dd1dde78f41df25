import ProbCore.Value.Equality

/-! Comparison of values by size: numbers with numbers, texts with texts, sequences by their
first difference. -/

namespace ProbCore.Value

inductive Comparison where
  | lt | le | gt | ge

def Comparison.holds : Comparison → Ordering → Bool
  | lt, o => o == .lt
  | le, o => o != .gt
  | gt, o => o == .gt
  | ge, o => o != .lt

/-- How two numbers stand to each other; NaN stands to nothing. -/
def Number.compare? : Number → Number → Option Ordering
  | .int a, .int b => some (compare a b)
  | .float a, .float b =>
    if a < b then some .lt else if a == b then some .eq else if a > b then some .gt else none
  | .int a, .float b => Decimal.compareInt? a b
  | .float a, .int b => (Decimal.compareInt? b a).map Ordering.swap

private def compareNumbers (op : Comparison) (a b : Number) : Bool :=
  match a.compare? b with
  | some o => op.holds o
  | none => false

def textOrdering (a b : String) : Ordering :=
  if a < b then .lt else if b < a then .gt else .eq

mutual

/-- `none` for values of kinds that have no order between them. -/
def compareBy? (op : Comparison) : Value → Value → Option Bool
  | bool a, b => (number? b).map (compareNumbers op (.int (if a then 1 else 0)))
  | int a, b => (number? b).map (compareNumbers op (.int a))
  | float a, b => (number? b).map (compareNumbers op (.float a))
  | undefined _, b => (number? b).map (compareNumbers op (.float (0 / 0)))
  | text a, text b => some (op.holds (textOrdering a b))
  | list a, list b => compareItemsBy? op a b
  | tuple a, tuple b => compareItemsBy? op a b
  | _, _ => none

/-- The first two items that are not equal decide; a sequence that runs out comes first. -/
def compareItemsBy? (op : Comparison) : List Value → List Value → Option Bool
  | [], [] => some (op.holds .eq)
  | [], _ :: _ => some (op.holds .lt)
  | _ :: _, [] => some (op.holds .gt)
  | a :: as, b :: bs => if a == b then compareItemsBy? op as bs else compareBy? op a b

end

end ProbCore.Value
