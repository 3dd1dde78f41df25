import ProbCore.Program.Syntax
import ProbCore.Address
import ProbCore.Dist.Basic
import ProbCore.Marginal.Queries
import ProbCore.Store

/-! The value of an expression. -/

namespace ProbCore

abbrev Vars := List (String × Value)

/-- What an expression can see. Names that are no variables are looked up among `globals`. -/
structure Scope where
  program : Program
  globals : Vars
  vars : Vars
  store : Store
  address : Address

namespace Scope

def lookup (sc : Scope) (name : String) : Except Failure Value :=
  match sc.vars.lookup name <|> sc.globals.lookup name with
  | some v => .ok v
  | none => .error .unknownName

end Scope

/-- Inside an expression a value that cannot be converted is refused without a text. -/
private def muted {α : Type} : Except Failure α → Except Failure α
  | .error (.invalid _) => .error (.invalid .other)
  | r => r

private def queried (v : Value) : Except Failure (Marginal Value Float) :=
  match v with
  | .marginal m => .ok m
  | _ => .error .noSuchQuery

def UnaryOp.eval (op : UnaryOp) (v : Value) : Except Failure Value :=
  match op with
  | neg => v.neg
  | length => do return .int (← v.length)
  | sum => v.total
  | log => v.log
  | exp => v.exp
  | float => do return .float (← muted v.toFloat)
  | int => do return .int (← muted v.toInt)
  | text => .ok (.text v.display)
  | support => do return .tuple (← queried v).values
  | expectation => do return .float (← (← queried v).expectation Value.toFloat)
  | normalization => do return ((← queried v).normalization.map Value.float).getD .absent
  | mode => do
    let (best, p) ← (← queried v).mode
    return .tuple [best, .float p]
  | histogram => do
    let table ← (← queried v).histogram
    return .dict (table.entries.map fun (k, p) => (k, .float p))

def BinaryOp.eval (op : BinaryOp) (a b : Value) : Except Failure Value :=
  match op with
  | add => a.add b
  | sub => a.sub b
  | mul => a.mul b
  | div => a.div b
  | floorDiv => a.floorDiv b
  | modulo => a.modulo b
  | equal => .ok (.bool (a.equals b))
  | different => .ok (.bool (!(a.equals b)))
  | compare c => do return .bool (← a.compare c b)
  | item => a.item b
  | append =>
    match a with
    | .tuple xs => .ok (.tuple (xs ++ [b]))
    | _ => .error .illTyped
  | prob => do return .float (← (← queried a).prob b)
  | score => do return .float (← (← queried a).score b)

mutual

/-- Arguments are evaluated from left to right, and only the chosen branch of a condition. -/
def Expr.eval (sc : Scope) : Expr → Except Failure Value
  | literal v => .ok v
  | var name => sc.lookup name
  | function name =>
    match sc.program.find? name with
    | some _ => .ok (.function name)
    | none => .error .unknownName
  | address => .ok (.address sc.address.tokens)
  | lookup key default => do
    let k ← key.eval sc
    let d ← default.eval sc
    return (← sc.store.get? k).getD d
  | item key => do sc.store.item (← key.eval sc)
  | contains key => do return .bool (← sc.store.contains (← key.eval sc))
  | size => .ok (.int sc.store.size)
  | and l r => do
    let a ← l.eval sc
    if a.isTrue then r.eval sc else return a
  | or l r => do
    let a ← l.eval sc
    if a.isTrue then return a else r.eval sc
  | not e => do return .bool (!(← e.eval sc).isTrue)
  | cond test yes no => do
    if (← test.eval sc).isTrue then yes.eval sc else no.eval sc
  | tuple es => do return .tuple (← Expr.evalAll sc es)
  | list es => do return .list (← Expr.evalAll sc es)
  | dict es => do
    let entries ← Expr.evalEntries sc es
    return .dict (Table.ofList entries).entries
  | unary op e => do op.eval (← e.eval sc)
  | binary op l r => do
    let a ← l.eval sc
    let b ← r.eval sc
    op.eval a b
  | unknown _ => .error .unknownName

def Expr.evalAll (sc : Scope) : List Expr → Except Failure (List Value)
  | [] => .ok []
  | e :: es => do
    let v ← e.eval sc
    return v :: (← Expr.evalAll sc es)

def Expr.evalEntries (sc : Scope) : List (Expr × Expr) → Except Failure (List (Value × Value))
  | [] => .ok []
  | (k, e) :: rest => do
    let key ← k.eval sc
    if !key.isHashable then throw .illTyped
    let v ← e.eval sc
    return (key, v) :: (← Expr.evalEntries sc rest)

end

/-- The distribution that an expression describes. -/
def DistExpr.eval (sc : Scope) : DistExpr → Except Failure Dist
  | family word params =>
    match Family.ofWord? word with
    | some f => do return @Dist.standard sc.program.samplers f (← Expr.evalAll sc params)
    | none => .error .unknownName
  | table name values densities enumerable => do
    let weights ← densities.mapM fun e => do muted (← e.eval sc).toFloat
    return .table name (values.zip weights) enumerable

/-- The address at a site: its own token below the current one, if it has one. -/
def Scope.site (sc : Scope) : Option Expr → Except Failure Address
  | none => .ok sc.address
  | some e => do return sc.address.extend (← e.eval sc)

/-- A part that may be left out. -/
def Scope.optional (sc : Scope) : Option Expr → Except Failure (Option Value)
  | none => .ok none
  | some e => do return some (← e.eval sc)

end ProbCore
