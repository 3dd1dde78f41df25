import ProbCore.Proofs.Relabelling
import ProbCore.Proofs.SharedStrategies

/-! Functions whose results tables keep. A program that calls such functions through their tables is
put beside the same program with the functions themselves in the tables' place. -/

namespace ProbCore

/-- A function behind a table, and what it delivers for the arguments that it is made for. -/
structure Remembered where
  table : Nat
  function : String
  result : List Value → Option Value

section

variable (ms : List Remembered)

/-- Whether a number is that of a table of one of the functions. -/
def tableKnown (table : Nat) : Bool := ms.any (·.table == table)

namespace Value

def tabled : Value → Bool
  | memo table _ => tableKnown ms table
  | _ => false

/-- The function itself, if the value is its table. -/
def bare : Value → Value
  | memo table name =>
    match ms.find? (·.table == table) with
    | some m => .function m.function
    | none => .memo table name
  | v => v

variable {ms} {v : Value}

theorem bare_of_untabled (untabled : v.tabled ms = false) : v.bare ms = v := by
  cases v with
  | memo table name =>
    have absent : ms.find? (·.table == table) = none := by
      simpa [tabled, tableKnown] using untabled
    simp only [bare, absent]
  | _ => rfl

theorem isCallable_bare (v : Value) : (v.bare ms).isCallable = v.isCallable := by
  cases v with
  | memo table name =>
    dsimp only [bare]
    split <;> rfl
  | _ => rfl

end Value

def Pass.bare (pass : Pass) : Pass := { pass with function := pass.function.bare ms }

def Rest.bare : Rest → Rest
  | halt => halt
  | deliver => deliver
  | entry f a => entry (f.bare ms) a
  | bind name body vars a k => bind name body vars a k.bare
  | sequence steps vars a k => sequence steps vars a k.bare
  | replace v k => replace v k.bare
  | remember table key k => remember table key k.bare
  | visit pass k => visit (pass.bare ms) k.bare

def Control.bare : Control → Control
  | eval c vars a s k => eval c vars a s (k.bare ms)
  | call f args a s k => call (f.bare ms) args a s (k.bare ms)
  | give k s v => give (k.bare ms) s v

/-- Suspended rests with the functions in place of their tables. -/
def bareness : Relabelling id Rest Rest :=
  { (.unmoved : Relabelling id Rest Rest) with rest := Rest.bare ms }

def Inference.bare (i : Inference) : Inference := { i with entry := i.entry.bare ms }

def Move.bare : Move → Move
  | go next => go (next.bare ms)
  | rest step => rest (step.relabel (bareness ms))
  | infer i s k => infer (i.bare ms) s (k.bare ms)

def Machine.InferCall.bare (c : InferCall) : InferCall := { c with function := c.function.bare ms }

def Machine.Context.bare (cx : Context) : Context :=
  ⟨cx.program, cx.globals.map fun (name, v) => (name, v.bare ms)⟩

end

mutual

/-- The names that an expression looks up. -/
def Expr.names : Expr → List String
  | var name => [name]
  | literal _ | function _ | address | size | unknown _ => []
  | item e | contains e | not e | unary _ e => e.names
  | lookup e e' | and e e' | or e e' | binary _ e e' => e.names ++ e'.names
  | cond test yes no => test.names ++ yes.names ++ no.names
  | tuple es | list es => Expr.allNames es
  | dict entries => Expr.entryNames entries

def Expr.allNames : List Expr → List String
  | [] => []
  | e :: es => e.names ++ Expr.allNames es

def Expr.entryNames : List (Expr × Expr) → List String
  | [] => []
  | (k, e) :: rest => k.names ++ e.names ++ Expr.entryNames rest

end

def DistExpr.names : DistExpr → List String
  | family _ params => Expr.allNames params
  | table _ _ densities _ => Expr.allNames densities

/-- An expression that is only a name. -/
def Expr.isName : Expr → Bool
  | var _ => true
  | _ => false

section

variable (sc : Scope) {globals : Vars}

/-- The same value is found under a name. -/
def Scope.Agrees (globals : Vars) (name : String) : Prop :=
  { sc with globals }.lookup name = sc.lookup name

variable {sc}

mutual

/-- The value of an expression depends only on what is found under its names. -/
theorem Expr.eval_agrees : ∀ e : Expr, (∀ name ∈ e.names, sc.Agrees globals name) →
    e.eval { sc with globals } = e.eval sc
  | .var name, agree => agree name (List.mem_singleton_self name)
  | .literal _, _ | .function _, _ | .address, _ | .size, _ | .unknown _, _ => by
    simp only [Expr.eval]
  | .item e, agree | .contains e, agree | .not e, agree | .unary _ e, agree => by
    simp only [Expr.eval, Expr.eval_agrees e agree]
  | .lookup e e', agree | .and e e', agree | .or e e', agree | .binary _ e e', agree => by
    obtain ⟨left, right⟩ := List.forall_mem_append.mp agree
    simp only [Expr.eval, Expr.eval_agrees e left, Expr.eval_agrees e' right]
  | .cond test yes no, agree => by
    obtain ⟨first, third⟩ := List.forall_mem_append.mp agree
    obtain ⟨first, second⟩ := List.forall_mem_append.mp first
    simp only [Expr.eval, Expr.eval_agrees test first, Expr.eval_agrees yes second,
      Expr.eval_agrees no third]
  | .tuple es, agree | .list es, agree => by
    simp only [Expr.eval, Expr.evalAll_agrees es agree]
  | .dict entries, agree => by
    simp only [Expr.eval, Expr.evalEntries_agrees entries agree]

theorem Expr.evalAll_agrees : ∀ es : List Expr,
    (∀ name ∈ Expr.allNames es, sc.Agrees globals name) →
    Expr.evalAll { sc with globals } es = Expr.evalAll sc es
  | [], _ => rfl
  | e :: es, agree => by
    obtain ⟨first, rest⟩ := List.forall_mem_append.mp agree
    simp only [Expr.evalAll, Expr.eval_agrees e first, Expr.evalAll_agrees es rest]

theorem Expr.evalEntries_agrees : ∀ entries : List (Expr × Expr),
    (∀ name ∈ Expr.entryNames entries, sc.Agrees globals name) →
    Expr.evalEntries { sc with globals } entries = Expr.evalEntries sc entries
  | [], _ => rfl
  | (k, e) :: rest, agree => by
    obtain ⟨first, others⟩ := List.forall_mem_append.mp agree
    obtain ⟨key, value⟩ := List.forall_mem_append.mp first
    simp only [Expr.evalEntries, Expr.eval_agrees k key, Expr.eval_agrees e value,
      Expr.evalEntries_agrees rest others]

end

theorem DistExpr.eval_agrees {d : DistExpr} (agree : ∀ name ∈ d.names, sc.Agrees globals name) :
    d.eval { sc with globals } = d.eval sc := by
  cases d with
  | family word params => simp only [DistExpr.eval, Expr.evalAll_agrees params agree]
  | table name values densities enumerable =>
    rw [DistExpr.eval, DistExpr.eval]
    congr 1
    replace agree : ∀ name ∈ Expr.allNames densities, sc.Agrees globals name := agree
    induction densities with
    | nil => rfl
    | cons e es ih =>
      obtain ⟨first, rest⟩ := List.forall_mem_append.mp agree
      rw [List.mapM_cons, List.mapM_cons, Expr.eval_agrees e first, ih rest]

end

end ProbCore
