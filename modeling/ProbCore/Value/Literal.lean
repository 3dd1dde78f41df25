import ProbCore.Value.Basic
import ProbCore.Tensor.Text
import ProbCore.Decimal.Shortest
import ProbCore.Text.Quoted

/-! The text of a value: as a literal, and as it is displayed. -/

namespace ProbCore.Value

def floatLiteral (x : Float) : String := Decimal.floatText Decimal.plainFormat x

private def measureLiteral : Measure Float → String
  | .count n => toString n
  | .rate x => floatLiteral x

private def commaSep (items : List String) : String := String.intercalate ", " items

private def braces (items : List String) : String := "\x7b" ++ commaSep items ++ "\x7d"

/-- A tuple of one item keeps a comma, which tells it from an item in parentheses. -/
def tupleText : List String → String
  | [item] => "(" ++ item ++ ",)"
  | items => "(" ++ commaSep items ++ ")"

mutual

/-- The value as a literal of the language, with a given form for arrays. -/
def literalWith (array : Tensor → String) : Value → String
  | absent => "None"
  | bool b => if b then "True" else "False"
  | int n => toString n
  | float x => floatLiteral x
  | undefined _ => floatLiteral (0 / 0)
  | text s => Text.literal s
  | list xs => "[" ++ commaSep (literalsWith array xs) ++ "]"
  | tuple xs => tupleText (literalsWith array xs)
  | dict es => braces (literalEntries array es)
  | index p => "Index(position=" ++ literalWith array p ++ ")"
  | address ts => "Address(tokens=" ++ tupleText (literalsWith array ts) ++ ")"
  | tensor t => array t
  | marginal m => literalMarginal array m
  | memo _ name => "Memoized(f=<function " ++ name ++ ">)"
  | function name => "<function " ++ name ++ ">"

def literalsWith (array : Tensor → String) : List Value → List String
  | [] => []
  | x :: xs => literalWith array x :: literalsWith array xs

def literalEntries (array : Tensor → String) : List (Value × Value) → List String
  | [] => []
  | (k, v) :: rest =>
    (literalWith array k ++ ": " ++ literalWith array v) :: literalEntries array rest

def literalMarginal (array : Tensor → String) : Marginal Value Float → String
  | ⟨values, logProbs, normalization, samples, diagnostics⟩ =>
    "Marginal(values=" ++ tupleText (literalsWith array values)
      ++ ", log_probs=" ++ tupleText (logProbs.map floatLiteral)
      ++ ", normalization_constant=" ++ (normalization.map floatLiteral).getD "None"
      ++ ", samples=" ++ tupleText (literalsWith array samples)
      ++ ", diagnostics="
      ++ braces (diagnostics.map fun (name, x) => Text.literal name ++ ": " ++ measureLiteral x) ++ ")"

end

def literal : Value → String := literalWith Tensor.literal

def literals : List Value → List String := literalsWith Tensor.literal

mutual

/-- The value as it is displayed: a text bare, an address as a path, all else as a literal. -/
def display : Value → String
  | text s => s
  | index p => "$$" ++ display p
  | address ts => "/" ++ String.intercalate "/" (displays ts)
  | tensor t => t.text
  | v => literal v

def displays : List Value → List String
  | [] => []
  | x :: xs => display x :: displays xs

end

end ProbCore.Value
