import ProbCore.Proofs.Continuation
import ProbCore.Proofs.Relabelling
import ProbCore.Proofs.SharedStrategies

/-! Programs without their bounces. A bounce is a move that only goes on with what it holds. All
other moves of a program are those of the program without its bounces, with what remains to be done
without them as well. -/

namespace ProbCore

mutual

/-- The computation with no bounces at any place. -/
def Comp.unbounced : Comp → Comp
  | bounce c => c.unbounced
  | bind name first rest => bind name first.unbounced rest.unbounced
  | sequence steps => sequence (Comp.allUnbounced steps)
  | choose test yes no => choose test yes.unbounced no.unbounced
  | c => c

def Comp.allUnbounced : List Comp → List Comp
  | [] => []
  | c :: cs => c.unbounced :: Comp.allUnbounced cs

end

/-- The computation without the bounces that it begins with. -/
def Comp.settled : Comp → Comp
  | bounce c => c.settled
  | c => c

def Definition.unbounced (d : Definition) : Definition := { d with body := d.body.unbounced }

def Program.unbounced (p : Program) : Program :=
  { p with definitions := p.definitions.map fun (name, d) => (name, d.unbounced) }

def Rest.unbounced : Rest → Rest
  | halt => halt
  | deliver => deliver
  | entry f a => entry f a
  | bind name body vars a k => bind name body.unbounced vars a k.unbounced
  | sequence steps vars a k => sequence (Comp.allUnbounced steps) vars a k.unbounced
  | replace v k => replace v k.unbounced
  | remember table key k => remember table key k.unbounced
  | visit pass k => visit pass k.unbounced

namespace Control

def unbounced : Control → Control
  | eval c vars a s k => eval c.unbounced vars a s k.unbounced
  | call f args a s k => call f args a s k.unbounced
  | give k s v => give k.unbounced s v

/-- The control after the bounces that come next. -/
def settled : Control → Control
  | eval c vars a s k => eval c.settled vars a s k
  | control => control

end Control

/-- Suspended rests without their bounces. -/
def unbouncing : Relabelling id Rest Rest := .renaming Rest.unbounced

def Inference.unbounced (i : Inference) : Inference := { i with entry := i.entry.unbounced }

def Move.unbounced : Move → Move
  | go next => go next.unbounced
  | rest step => rest (step.relabel unbouncing)
  | infer i s k => infer i.unbounced s k.unbounced

def Machine.Context.unbounced (cx : Context) : Context := ⟨cx.program.unbounced, cx.globals⟩

theorem Program.find?_unbounced (p : Program) (name : String) :
    p.unbounced.find? name = (p.find? name).map Definition.unbounced := by
  obtain ⟨definitions⟩ := p
  unfold find? unbounced
  induction definitions with
  | nil => rfl
  | cons entry rest ih =>
    rw [List.map_cons, List.lookup_cons, List.lookup_cons, ih]
    split <;> rfl

/-- A scope of the program without its bounces. -/
def Scope.unbounced (sc : Scope) : Scope := { sc with program := sc.program.unbounced }

section

variable (sc : Scope)

mutual

/-- Of functions an expression only knows which there are. -/
theorem Expr.eval_unbounced : ∀ e : Expr, e.eval sc.unbounced = e.eval sc
  | .function name => by
    simp only [Expr.eval, Scope.unbounced, Program.find?_unbounced]
    cases sc.program.find? name <;> rfl
  | .literal _ | .unknown _ => by simp only [Expr.eval]
  | .var _ | .address | .size => by
    simp only [Expr.eval]
    rfl
  | .item e | .contains e => by
    simp only [Expr.eval, Expr.eval_unbounced e]
    rfl
  | .not e | .unary _ e => by simp only [Expr.eval, Expr.eval_unbounced e]
  | .lookup e e' => by
    simp only [Expr.eval, Expr.eval_unbounced e, Expr.eval_unbounced e']
    rfl
  | .and e e' | .or e e' | .binary _ e e' => by
    simp only [Expr.eval, Expr.eval_unbounced e, Expr.eval_unbounced e']
  | .cond test yes no => by
    simp only [Expr.eval, Expr.eval_unbounced test, Expr.eval_unbounced yes, Expr.eval_unbounced no]
  | .tuple es | .list es => by simp only [Expr.eval, Expr.evalAll_unbounced es]
  | .dict entries => by simp only [Expr.eval, Expr.evalEntries_unbounced entries]

theorem Expr.evalAll_unbounced : ∀ es : List Expr,
    Expr.evalAll sc.unbounced es = Expr.evalAll sc es
  | [] => rfl
  | e :: es => by simp only [Expr.evalAll, Expr.eval_unbounced e, Expr.evalAll_unbounced es]

theorem Expr.evalEntries_unbounced : ∀ entries : List (Expr × Expr),
    Expr.evalEntries sc.unbounced entries = Expr.evalEntries sc entries
  | [] => rfl
  | (k, e) :: rest => by
    simp only [Expr.evalEntries, Expr.eval_unbounced k, Expr.eval_unbounced e,
      Expr.evalEntries_unbounced rest]

end

theorem DistExpr.eval_unbounced (d : DistExpr) : d.eval sc.unbounced = d.eval sc := by
  cases d with
  | family word params =>
    simp only [DistExpr.eval, Expr.evalAll_unbounced]
    rfl
  | table name values densities enumerable => simp only [DistExpr.eval, Expr.eval_unbounced]

theorem Scope.site_unbounced (t : Option Expr) : sc.unbounced.site t = sc.site t := by
  cases t with
  | none => rfl
  | some e =>
    simp only [Scope.site, Expr.eval_unbounced]
    rfl

theorem Scope.optional_unbounced (part : Option Expr) :
    sc.unbounced.optional part = sc.optional part := by
  cases part with
  | none => rfl
  | some e => simp only [Scope.optional, Expr.eval_unbounced]

end

namespace Comp

theorem unbounced_settled (c : Comp) : c.settled.unbounced = c.unbounced := by
  induction c using Comp.settled.induct with
  | case1 c ih => simpa only [settled, unbounced] using ih
  | case2 c other => rw [settled]; exact other

theorem settled_ne_bounce (c c' : Comp) : c.settled ≠ bounce c' := by
  induction c using Comp.settled.induct with
  | case1 c ih => simpa only [settled] using ih
  | case2 c other =>
    rw [settled]
    · exact other c'
    · exact other

end Comp

theorem Control.unbounced_settled (control : Control) :
    control.settled.unbounced = control.unbounced := by
  cases control with
  | eval c vars a s k => exact congrArg (Control.eval · vars a s k.unbounced) c.unbounced_settled
  | call => rfl
  | give => rfl

namespace Machine

theorem nextVisit_unbounced (pass : Pass) (s : Store) (k : Rest) :
    Mirrors alone Control.unbounced (nextVisit pass s k) (nextVisit pass s k.unbounced) := by
  unfold nextVisit
  split
  · exact (alone_mirrors _).bind fun _ => .pure (Control.give k s _)
  · split
    · exact .throw (.same _)
    · exact .pure (Control.call _ _ _ s (.visit _ k))

theorem beginPass_unbounced (a : Address) (data function : Value) (batch : Option Value) (s : Store)
    (k : Rest) : Mirrors alone Control.unbounced (beginPass a data function batch s k)
      (beginPass a data function batch s k.unbounced) := by
  rw [beginPass_eq, beginPass_eq]
  exact (alone_mirrors _).bind fun size => .ite (.pure (Control.give k s (.tuple [])))
    ((alone_mirrors _).bind fun pass => nextVisit_unbounced pass s k)

theorem callMemo_unbounced (table : Nat) (args : List Value) (a : Address) (s : Store) (k : Rest) :
    Mirrors alone Control.unbounced (callMemo table args a s k)
      (callMemo table args a s k.unbounced) := by
  refine (alone_mirrors _).bind fun key => (alone_mirrors _).bind fun m => .ite ?_ ?_
  · exact (alone_mirrors _).bind fun (v, cache) => (alone_mirrors _).bind fun _ =>
      .pure (Control.give k s v)
  · exact .pure (Control.call m.function args a s (.remember table key k))

theorem enter_unbounced (cx : Context) (function : Value) (args : List Value) (a : Address)
    (s : Store) (k : Rest) : Mirrors alone Control.unbounced (enter cx function args a s k)
      (enter cx.unbounced function args a s k.unbounced) := by
  cases function with
  | memo table name => exact callMemo_unbounced table args a s k
  | function name =>
    unfold enter Context.unbounced
    dsimp only
    rw [Program.find?_unbounced]
    cases cx.program.find? name with
    | none => exact .throw (.same _)
    | some d => exact .ite (.throw (.same _)) (.pure (Control.eval d.body (d.params.zip args) a s k))
  | _ => exact .throw (.same _)

theorem InferCall.read_unbounced (sc : Scope) (t : Option Expr) (f method : Expr)
    (options : List (String × Expr)) :
    InferCall.read sc.unbounced t f method options = InferCall.read sc t f method options := by
  simp only [InferCall.read, Scope.site_unbounced, Expr.eval_unbounced]

/-- The entry of an inference has no bounces. -/
theorem prepare_unbounced (a : Address) (function method : Value) (key : Option Random.Key)
    (options : Options) (picks : Option (List Value)) :
    Mirrors alone Inference.unbounced (prepare a function method key options picks)
      (prepare a function method key options picks) := by
  rw [prepare_eq]
  exact (alone_mirrors _).bind fun method => (alone_mirrors _).bind fun key =>
    (alone_mirrors _).bind fun strategy => (alone_mirrors _).bind fun _ =>
      .pure (Inference.mk ⟨method.title, key, a, picks⟩ strategy (.entry function a))

section

/-- A computation moves as it does without its bounces. -/
def MovesUnbounced (cx : Context) (vars : Vars) (a : Address) (s : Store) (k : Rest) (c : Comp) : Prop :=
  Mirrors alone Move.unbounced (advanceComp cx c vars a s k)
    (advanceComp cx.unbounced c.unbounced vars a s k.unbounced)

theorem read_unbounced {α : Type} {r r' : Except Failure α} {f g : α → Run Move} (same : r' = r)
    (rest : ∀ a, Mirrors alone Move.unbounced (f a) (g a)) :
    Mirrors alone Move.unbounced (Run.lift r >>= f) (Run.lift r' >>= g) := by
  rw [same]
  exact (alone_mirrors _).bind rest

theorem gives_unbounced (k : Rest) (s : Store) (v : Value) : Mirrors alone Move.unbounced
    (pure (.go (.give k s v))) (pure (.go (.give k.unbounced s v))) := .pure (Move.go (.give k s v))

variable {cx : Context} {vars : Vars} {a : Address} {s : Store} {k : Rest}

/-! ### What is run next -/

theorem sequence_unbounced (steps : List Comp) : MovesUnbounced cx vars a s k (.sequence steps) := by
  match steps with
  | [] => exact gives_unbounced k s .absent
  | [c] => exact .pure (Move.go (.eval c vars a s k))
  | c :: c' :: rest => exact .pure (Move.go (.eval c vars a s (.sequence (c' :: rest) vars a k)))

theorem choose_unbounced (test : Expr) (yes no : Comp) :
    MovesUnbounced cx vars a s k (.choose test yes no) := by
  refine read_unbounced (test.eval_unbounced ⟨cx.program, cx.globals, vars, s, a⟩) fun v => ?_
  cases v.isTrue with
  | true => exact .pure (Move.go (.eval yes vars a s k))
  | false => exact .pure (Move.go (.eval no vars a s k))

/-! ### Steps handed to the strategy in charge -/

theorem sample_unbounced (t : Option Expr) (d : DistExpr) : MovesUnbounced cx vars a s k (.sample t d) :=
  let sc : Scope := ⟨cx.program, cx.globals, vars, s, a⟩
  read_unbounced (sc.site_unbounced t) fun place => read_unbounced (d.eval_unbounced sc) fun d =>
    (alone_mirrors _).bind fun _ => .pure (Move.rest (.sample s k place d))

theorem factor_unbounced (t : Option Expr) (e : Expr) : MovesUnbounced cx vars a s k (.factor t e) :=
  let sc : Scope := ⟨cx.program, cx.globals, vars, s, a⟩
  read_unbounced (sc.site_unbounced t) fun place => read_unbounced (e.eval_unbounced sc) fun _ =>
    (alone_mirrors _).bind fun _ => (alone_mirrors _).bind fun x => .pure (Move.rest (.factor s k place x))

theorem observe_unbounced (t : Option Expr) (d : DistExpr) (e : Expr) :
    MovesUnbounced cx vars a s k (.observe t d e) :=
  let sc : Scope := ⟨cx.program, cx.globals, vars, s, a⟩
  read_unbounced (sc.site_unbounced t) fun place => read_unbounced (d.eval_unbounced sc) fun _ =>
    read_unbounced (e.eval_unbounced sc) fun v => (alone_mirrors _).bind fun _ =>
      (alone_mirrors _).bind fun x => .pure (Move.rest (.factor s (.replace v k) place x))

/-! ### Calls -/

theorem call_unbounced (t : Option Expr) (f : Expr) (args : List Expr) :
    MovesUnbounced cx vars a s k (.call t f args) :=
  let sc : Scope := ⟨cx.program, cx.globals, vars, s, a⟩
  read_unbounced (f.eval_unbounced sc) fun f => read_unbounced (sc.site_unbounced t) fun place =>
    read_unbounced (Expr.evalAll_unbounced sc args) fun args => .pure (Move.go (.call f args place s k))

theorem apply_unbounced (t : Option Expr) (f : Expr) (args : List Expr) :
    MovesUnbounced cx vars a s k (.apply t f args) :=
  let sc : Scope := ⟨cx.program, cx.globals, vars, s, a⟩
  read_unbounced (sc.site_unbounced t) fun place => read_unbounced (f.eval_unbounced sc) fun f =>
    read_unbounced (Expr.evalAll_unbounced sc args) fun args => .pure (Move.go (.call f args place s k))

theorem map_unbounced (t : Option Expr) (data f : Expr) (batch : Option Expr) :
    MovesUnbounced cx vars a s k (.map t data f batch) :=
  let sc : Scope := ⟨cx.program, cx.globals, vars, s, a⟩
  read_unbounced (sc.site_unbounced t) fun place => read_unbounced (data.eval_unbounced sc) fun data =>
    read_unbounced (f.eval_unbounced sc) fun f => read_unbounced (sc.optional_unbounced batch) fun batch =>
      (beginPass_unbounced place data f batch s k).bind fun next => .pure (Move.go next)

theorem infer_unbounced (t : Option Expr) (f method : Expr) (options : List (String × Expr)) :
    MovesUnbounced cx vars a s k (.infer t f method options) := by
  have moves := advance_infer cx t f method options vars a s k
  have moves' := advance_infer cx.unbounced t f method options vars a s k.unbounced
  rw [advance] at moves moves'
  rw [MovesUnbounced, show (Comp.infer t f method options).unbounced = .infer t f method options from rfl,
    moves, moves']
  have same := InferCall.read_unbounced ⟨cx.program, cx.globals, vars, s, a⟩ t f method options
  refine read_unbounced same fun c => ?_
  exact (prepare_unbounced c.place c.function c.method c.key c.options none).bind fun i =>
    .pure (Move.infer i s k)

/-! ### What is made and kept -/

theorem cache_unbounced (t : Option Expr) (f : Expr) (bound : Option Expr) :
    MovesUnbounced cx vars a s k (.cache t f bound) :=
  let sc : Scope := ⟨cx.program, cx.globals, vars, s, a⟩
  read_unbounced (sc.site_unbounced t) fun _ => read_unbounced (f.eval_unbounced sc) fun _ =>
    read_unbounced (sc.optional_unbounced bound) fun _ =>
      (alone_mirrors _).bind fun v => gives_unbounced k s v

theorem paramMove_unbounced (t : Option Expr) (start : Expr) (mean sd seed : Option Expr) :
    MovesUnbounced cx vars a s k (.param t start mean sd seed) :=
  let sc : Scope := ⟨cx.program, cx.globals, vars, s, a⟩
  read_unbounced (sc.site_unbounced t) fun _ => read_unbounced (start.eval_unbounced sc) fun _ =>
    read_unbounced (sc.optional_unbounced mean) fun _ => read_unbounced (sc.optional_unbounced sd) fun _ =>
      read_unbounced (sc.optional_unbounced seed) fun _ => (alone_mirrors _).bind fun _ =>
        (alone_mirrors _).bind fun _ => (alone_mirrors _).bind fun _ =>
          (alone_mirrors _).bind fun v => gives_unbounced k s v

theorem advanceComp_unbounced {c : Comp} (settled : ∀ c', c ≠ .bounce c') :
    MovesUnbounced cx vars a s k c := by
  let sc : Scope := ⟨cx.program, cx.globals, vars, s, a⟩
  cases c with
  | ret e => exact read_unbounced (e.eval_unbounced sc) fun v => gives_unbounced k s v
  | bind name first rest => exact .pure (Move.go (.eval first vars a s (.bind name rest vars a k)))
  | sequence steps => exact sequence_unbounced steps
  | choose test yes no => exact choose_unbounced test yes no
  | bounce c => exact absurd rfl (settled c)
  | sample t d => exact sample_unbounced t d
  | factor t e => exact factor_unbounced t e
  | observe t d e => exact observe_unbounced t d e
  | call t f args => exact call_unbounced t f args
  | apply t f args => exact apply_unbounced t f args
  | map t data f batch => exact map_unbounced t data f batch
  | infer t f method options => exact infer_unbounced t f method options
  | cache t f bound => exact cache_unbounced t f bound
  | param t start mean sd seed => exact paramMove_unbounced t start mean sd seed
  | set key e =>
    exact read_unbounced (key.eval_unbounced sc) fun _ => read_unbounced (e.eval_unbounced sc) fun _ =>
      (alone_mirrors _).bind fun s => gives_unbounced k s .absent
  | relative t =>
    exact read_unbounced (sc.site_unbounced t) fun _ =>
      (alone_mirrors _).bind fun a => gives_unbounced k s (.address a.tokens)
  | tensor form t e =>
    exact read_unbounced (sc.site_unbounced t) fun _ => read_unbounced (e.eval_unbounced sc) fun _ =>
      (alone_mirrors _).bind fun v => gives_unbounced k s v
  | emit e =>
    exact read_unbounced (e.eval_unbounced sc) fun _ =>
      (alone_mirrors _).bind fun _ => gives_unbounced k s .absent
  | raise message => exact .throw (.same _)
  | stop e => exact read_unbounced (e.eval_unbounced sc) fun v => .pure (Move.rest (.stray v))
  | unknown _ => exact .throw (.same _)

variable (cx)

/-- After the bounces that come next, each move is one of the program without bounces. -/
theorem advance_unbounced (control : Control) :
    Mirrors alone Move.unbounced (advance cx control.settled)
      (advance cx.unbounced control.unbounced) := by
  rw [← control.unbounced_settled]
  cases control with
  | eval c vars a s k => exact advanceComp_unbounced c.settled_ne_bounce
  | call f args a s k => exact (enter_unbounced cx f args a s k).bind fun next => .pure (Move.go next)
  | give k s v =>
    cases k with
    | halt => exact .pure (Move.rest (.exit s v))
    | deliver => exact .pure (Move.rest (.stray v))
    | entry f a => exact .pure (Move.go (.call f [] a s .halt))
    | bind name body vars a k => exact .pure (Move.go (.eval body ((name, v) :: vars) a s k))
    | sequence steps vars a k => exact .pure (Move.go (.eval (.sequence steps) vars a s k))
    | replace observed k => exact .pure (Move.go (.give k s observed))
    | remember table key k => exact (alone_mirrors _).bind fun _ => .pure (Move.go (.give k s v))
    | visit pass k =>
      exact (nextVisit_unbounced { pass with results := v :: pass.results } s k).bind fun next =>
        .pure (Move.go next)

end

end Machine

end ProbCore
