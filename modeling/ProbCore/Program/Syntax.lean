import ProbCore.Dist.Basic
import ProbCore.Value.Order

/-! The language of programs: pure expressions, distributions, and computations that make
choices and absorb factors. -/

namespace ProbCore

inductive UnaryOp where
  | neg | length | sum | log | exp | float | int | text
  | support | expectation | normalization | mode | histogram

inductive BinaryOp where
  | add | sub | mul | div | floorDiv | modulo
  | equal | different
  | compare (op : Value.Comparison)
  | item | append
  | prob | score

/-- Expressions read variables, the store and the address, and change nothing. -/
inductive Expr where
  | literal (v : Value)
  | var (name : String)
  | function (name : String)
  | address
  | lookup (key : Expr) (default : Expr)
  | item (key : Expr)
  | contains (key : Expr)
  | size
  | and (left right : Expr)
  | or (left right : Expr)
  | not (e : Expr)
  | cond (test yes no : Expr)
  | tuple (items : List Expr)
  | list (items : List Expr)
  | dict (entries : List (Expr × Expr))
  | unary (op : UnaryOp) (e : Expr)
  | binary (op : BinaryOp) (left right : Expr)
  | unknown (word : String)

instance : Inhabited Expr := ⟨.literal .absent⟩

inductive DistExpr where
  | family (word : String) (params : List Expr)
  | table (name : String) (values : List Value) (densities : List Expr) (enumerable : Bool)

inductive TensorForm where
  | vector | matrix | zeros

/-- Computations. Where there is a `site`, its value extends the address. -/
inductive Comp where
  | ret (e : Expr)
  | bind (name : String) (first rest : Comp)
  | sequence (steps : List Comp)
  | choose (test : Expr) (yes no : Comp)
  | sample (site : Option Expr) (d : DistExpr)
  | factor (site : Option Expr) (score : Expr)
  | observe (site : Option Expr) (d : DistExpr) (value : Expr)
  | set (key value : Expr)
  | call (site : Option Expr) (function : Expr) (args : List Expr)
  | apply (site : Option Expr) (function : Expr) (args : List Expr)
  | bounce (body : Comp)
  | relative (site : Option Expr)
  | map (site : Option Expr) (data function : Expr) (batch : Option Expr)
  | cache (site : Option Expr) (function : Expr) (bound : Option Expr)
  | param (site : Option Expr) (start : Expr) (mean sd seed : Option Expr)
  | tensor (form : TensorForm) (site : Option Expr) (e : Expr)
  | infer (site : Option Expr) (function method : Expr) (options : List (String × Expr))
  | emit (e : Expr)
  | raise (message : String)
  | stop (e : Expr)
  | unknown (word : String)

instance : Inhabited Comp := ⟨.sequence []⟩

structure Definition where
  params : List String
  body : Comp

/-- Named functions, and the samplers that their distributions come with. -/
structure Program where
  definitions : List (String × Definition)
  [samplers : Samplers]

def Program.find? (p : Program) (name : String) : Option Definition := p.definitions.lookup name

end ProbCore
