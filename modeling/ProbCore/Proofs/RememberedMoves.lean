import ProbCore.Proofs.Continuation
import ProbCore.Proofs.KeptTables

/-! One move of a program that calls functions through their tables, beside the move of the program
with the functions themselves. Apart from the calls of the tables the moves are the same, as long as
the program uses what the tables stand for in no other way. -/

namespace ProbCore

namespace Machine

section

variable (ms : List Remembered) (cx : Context)

/-- Whether a name stands for one of the tables, where some names are variables. -/
def Context.hides (vars : Vars) (name : String) : Bool :=
  (vars.lookup name).isNone && (cx.globals.lookup name).any (·.tabled ms)

/-- Whether none of some names stands for a table. -/
def Context.reads (vars : Vars) (names : List String) : Bool :=
  names.all fun name => !cx.hides ms vars name

/-- Whether a part, if it is there, looks up no table. -/
def Context.readsPart (vars : Vars) (part : Option Expr) : Bool :=
  part.all fun e => cx.reads ms vars e.names

/-- Whether an expression for a function is a name or looks up no table, and is no table itself. -/
def Context.calls (sc : Scope) (f : Expr) : Bool :=
  (f.isName || cx.reads ms sc.vars f.names) &&
    match f.eval sc with
    | .ok v => !v.tabled ms
    | .error _ => true

/-- Whether a move of a computation looks up tables only to have them called. -/
def Context.permitsComp (sc : Scope) : Comp → Bool
  | .bind .. | .sequence _ | .bounce _ | .raise _ | .unknown _ => true
  | .ret e | .emit e | .stop e => cx.reads ms sc.vars e.names
  | .choose test _ _ => cx.reads ms sc.vars test.names
  | .sample t d => cx.readsPart ms sc.vars t && cx.reads ms sc.vars d.names
  | .factor t e | .tensor _ t e => cx.readsPart ms sc.vars t && cx.reads ms sc.vars e.names
  | .observe t d e =>
    cx.readsPart ms sc.vars t && cx.reads ms sc.vars d.names && cx.reads ms sc.vars e.names
  | .set key e => cx.reads ms sc.vars key.names && cx.reads ms sc.vars e.names
  | .call t f args | .apply t f args =>
    cx.readsPart ms sc.vars t && cx.calls ms sc f && cx.reads ms sc.vars (Expr.allNames args)
  | .relative t => cx.readsPart ms sc.vars t
  | .map t data f batch =>
    cx.readsPart ms sc.vars t && cx.reads ms sc.vars data.names && cx.calls ms sc f &&
      cx.readsPart ms sc.vars batch
  | .cache t f bound =>
    cx.readsPart ms sc.vars t && cx.reads ms sc.vars f.names && cx.calls ms sc f &&
      cx.readsPart ms sc.vars bound
  | .param t start mean sd seed =>
    cx.readsPart ms sc.vars t && cx.reads ms sc.vars start.names && cx.readsPart ms sc.vars mean &&
      cx.readsPart ms sc.vars sd && cx.readsPart ms sc.vars seed
  | .infer t f method options =>
    cx.readsPart ms sc.vars t && cx.calls ms sc f && cx.reads ms sc.vars method.names &&
      cx.reads ms sc.vars (Expr.allNames (options.map (·.2)))

/-- The moves of a program that has the functions in the place of their tables: those that use the
functions only to call them, for arguments that these are made for, and do not touch the tables. -/
def Context.permits : Control → Bool
  | .eval c vars a s _ => cx.permitsComp ms ⟨cx.program, (cx.bare ms).globals, vars, s, a⟩ c
  | .call (.function name) args _ _ _ =>
    ms.all fun m => m.function != name || (m.result args).isSome
  | .give (.remember table _ _) _ _ => !tableKnown ms table
  | _ => true

end

variable {ms : List Remembered} {cx : Context}

theorem globals_bare (ms : List Remembered) (globals : Vars) (name : String) :
    (globals.map fun (name, v) => (name, v.bare ms)).lookup name =
      (globals.lookup name).map (Value.bare ms) := by
  induction globals with
  | nil => rfl
  | cons entry rest ih =>
    rw [List.map_cons, List.lookup_cons, List.lookup_cons, ih]
    split <;> rfl

/-- The scope of a computation in the program with the functions themselves. -/
def bareScope (ms : List Remembered) (cx : Context) (vars : Vars) (s : Store) (a : Address) : Scope :=
  ⟨cx.program, (cx.bare ms).globals, vars, s, a⟩

section

variable (vars : Vars) (s : Store) (a : Address)

theorem lookup_bare (name : String) :
    (bareScope ms cx vars s a).lookup name =
      match vars.lookup name with
      | some v => .ok v
      | none => (Scope.lookup ⟨cx.program, cx.globals, vars, s, a⟩ name).map (Value.bare ms) := by
  unfold Scope.lookup bareScope Context.bare
  dsimp only
  rw [globals_bare]
  cases vars.lookup name with
  | some v => rfl
  | none => cases cx.globals.lookup name <;> rfl

theorem agrees_of_reads {names : List String} (reads : cx.reads ms vars names = true) :
    ∀ name ∈ names, (bareScope ms cx vars s a).Agrees cx.globals name := by
  intro name member
  have shown : cx.hides ms vars name = false := by
    simpa using List.all_eq_true.mp reads name member
  unfold Scope.Agrees bareScope Context.bare Scope.lookup
  dsimp only
  rw [globals_bare]
  cases local_ : vars.lookup name with
  | some v => rfl
  | none =>
    have same : (cx.globals.lookup name).map (Value.bare ms) = cx.globals.lookup name := by
      cases known : cx.globals.lookup name with
      | none => rfl
      | some v =>
        rw [Context.hides, local_, known] at shown
        exact congrArg some (Value.bare_of_untabled shown)
    rw [same]

theorem eval_bare {e : Expr} (reads : cx.reads ms vars e.names = true) :
    e.eval ⟨cx.program, cx.globals, vars, s, a⟩ = e.eval (bareScope ms cx vars s a) :=
  Expr.eval_agrees e (agrees_of_reads vars s a reads)

theorem evalAll_bare {es : List Expr} (reads : cx.reads ms vars (Expr.allNames es) = true) :
    Expr.evalAll ⟨cx.program, cx.globals, vars, s, a⟩ es =
      Expr.evalAll (bareScope ms cx vars s a) es :=
  Expr.evalAll_agrees es (agrees_of_reads vars s a reads)

theorem evalDist_bare {d : DistExpr} (reads : cx.reads ms vars d.names = true) :
    d.eval ⟨cx.program, cx.globals, vars, s, a⟩ = d.eval (bareScope ms cx vars s a) :=
  DistExpr.eval_agrees (agrees_of_reads vars s a reads)

theorem site_bare {t : Option Expr} (reads : cx.readsPart ms vars t = true) :
    Scope.site ⟨cx.program, cx.globals, vars, s, a⟩ t = (bareScope ms cx vars s a).site t := by
  cases t with
  | none => rfl
  | some e =>
    rw [Scope.site, Scope.site, eval_bare vars s a reads]
    rfl

theorem optional_bare {part : Option Expr} (reads : cx.readsPart ms vars part = true) :
    Scope.optional ⟨cx.program, cx.globals, vars, s, a⟩ part =
      (bareScope ms cx vars s a).optional part := by
  cases part with
  | none => rfl
  | some e => rw [Scope.optional, Scope.optional, eval_bare vars s a reads]

theorem named_bare {named : List (String × Expr)}
    (reads : cx.reads ms vars (Expr.allNames (named.map (·.2))) = true) :
    (named.mapM fun (name, e) => do
      return (name, ← e.eval ⟨cx.program, cx.globals, vars, s, a⟩) :
        Except Failure (List (String × Value))) =
      named.mapM fun (name, e) => do return (name, ← e.eval (bareScope ms cx vars s a)) := by
  induction named with
  | nil => rfl
  | cons entry rest ih =>
    rw [Context.reads, List.map_cons, Expr.allNames, List.all_append, Bool.and_eq_true] at reads
    rw [List.mapM_cons, List.mapM_cons, ih reads.2]
    dsimp only
    rw [eval_bare vars s a reads.1]

theorem untabled_of_calls {f : Expr} {v : Value}
    (calls : cx.calls ms (bareScope ms cx vars s a) f = true)
    (same : f.eval (bareScope ms cx vars s a) = .ok v) : v.tabled ms = false := by
  obtain ⟨_, untabled⟩ := (Bool.and_eq_true _ _).mp calls
  rw [same] at untabled
  simpa using untabled

/-- A function that may be a table is evaluated to the function itself. -/
theorem evalCalled_bare {f : Expr} (calls : cx.calls ms (bareScope ms cx vars s a) f = true) :
    f.eval (bareScope ms cx vars s a) =
      (f.eval ⟨cx.program, cx.globals, vars, s, a⟩).map (Value.bare ms) := by
  have settled {v : Value} (same : f.eval (bareScope ms cx vars s a) = .ok v) : v.bare ms = v :=
    Value.bare_of_untabled (untabled_of_calls vars s a calls same)
  obtain ⟨named, _⟩ := (Bool.and_eq_true _ _).mp calls
  obtain is_name | reads := (Bool.or_eq_true _ _).mp named
  · cases f with
    | var name =>
      change (bareScope ms cx vars s a).lookup name = .map _ (Scope.lookup _ name)
      rw [lookup_bare]
      cases found : vars.lookup name with
      | none => rfl
      | some v =>
        have same : (Expr.var name).eval (bareScope ms cx vars s a) = .ok v := by
          change (bareScope ms cx vars s a).lookup name = .ok v
          rw [lookup_bare, found]
        simp only [Scope.lookup, found]
        exact congrArg Except.ok (settled same).symm
    | _ => cases is_name
  · rw [eval_bare vars s a reads]
    cases known : f.eval (bareScope ms cx vars s a) with
    | error e => rfl
    | ok v => exact congrArg Except.ok (settled known).symm

theorem inferCall_bare {t : Option Expr} {f method : Expr} {options : List (String × Expr)}
    (permitted : cx.permitsComp ms (bareScope ms cx vars s a) (.infer t f method options) = true) :
    InferCall.read (bareScope ms cx vars s a) t f method options =
      (InferCall.read ⟨cx.program, cx.globals, vars, s, a⟩ t f method options).map
        (InferCall.bare ms) := by
  simp only [Context.permitsComp, Bool.and_eq_true] at permitted
  obtain ⟨⟨⟨site, calls⟩, reads⟩, named⟩ := permitted
  rw [InferCall.read, InferCall.read, ← site_bare vars s a site, evalCalled_bare vars s a calls,
    ← eval_bare vars s a reads, ← named_bare vars s a named]
  cases Scope.site ⟨cx.program, cx.globals, vars, s, a⟩ t with
  | error e => rfl
  | ok place =>
    cases f.eval ⟨cx.program, cx.globals, vars, s, a⟩ with
    | error e => rfl
    | ok f =>
      cases method.eval ⟨cx.program, cx.globals, vars, s, a⟩ with
      | error e => rfl
      | ok method =>
        cases options.mapM fun (name, e) => do
            return (name, ← e.eval ⟨cx.program, cx.globals, vars, s, a⟩) with
        | error e => rfl
        | ok options =>
          dsimp only [bind, Except.bind]
          cases seedKey (options.lookup "key") <;> rfl

end

end Machine

section

variable {ms : List Remembered} {α β : Type} {φ : α → β}

theorem modify_alike {f : World → World}
    (rest : ∀ {w' w : World}, w'.hushed = w.hushed → (f w').hushed = (f w).hushed)
    (memos : ∀ w, (f w).memos = w.memos) :
    Mirrors (memoizing ms) id (modify f : Run Unit) (modify f) :=
  fun _ w' w (held : Alike ms w' w) => ⟨rfl, held.unchanged (rest held.rest) (memos w') (memos w)⟩

theorem note_alike (n n' : Notice) : Mirrors (memoizing ms) id (Run.note n) (Run.note n') :=
  fun _ _ _ (held : Alike ms _ _) => ⟨rfl, held.unchanged held.rest rfl rfl⟩

/-- Only what the worlds have in common may be looked up. -/
theorem get_alike {f : World → Run α} {g : World → Run β}
    (each : ∀ w, Mirrors (memoizing ms) φ (f w) (g w))
    (unseen : ∀ {w' w : World}, w'.hushed = w.hushed → f w' = f w) :
    Mirrors (memoizing ms) φ (get >>= f) (get >>= g) := by
  intro i w' w held
  have alike : Alike ms w' w := held
  change (memoizing ms).Agree i φ (f w' w') (g w w)
  rw [unseen alike.rest]
  exact each w i w' w held

theorem emit_alike (v : Value) : Mirrors (memoizing ms) id (Run.emit v) (Run.emit v) := by
  have kept (w : World) : (if w.eventCount < Run.mostEvents then
      { w with events := v :: w.events, eventCount := w.eventCount + 1 } else w).hushed = w.hushed := by
    split <;> rfl
  refine modify_alike (fun {w' w} rest => ?_) fun w => ?_
  · rw [kept, kept, rest]
  · split <;> rfl

/-- The world after the strategy in charge was told that a pass is complete. -/
def World.completing (a : Address) (w : World) : World := ended (Run.finishPass a w)

theorem completing_hushed (a : Address) (w : World) :
    (w.completing a).hushed = w.hushed.completing a := by
  obtain ⟨strategies, _⟩ := w
  match strategies with
  | [] => rfl
  | ⟨_, _, _, none⟩ :: _ => rfl
  | ⟨_, _, _, some _⟩ :: _ => rfl

theorem finishPass_alike (a : Address) :
    Mirrors (memoizing ms) id (Run.finishPass a) (Run.finishPass a) := by
  refine modify_alike (fun {w' w} rest => ?_) fun w => ?_
  · change (w'.completing a).hushed = (w.completing a).hushed
    rw [completing_hushed, completing_hushed, rest]
  · split <;> rfl

theorem fetch_alike (previous : Option (List Int)) (size : Nat) (batch : Value) (a : Address) :
    Mirrors (memoizing ms) id (Run.fetch previous size batch a) (Run.fetch previous size batch a) := by
  refine (memoizing_sharing ms).current.bind fun active => ?_
  obtain ⟨title, key, address, picks⟩ := active
  cases picks with
  | none => exact .pure _
  | some picks =>
    refine Mirrors.bind (modify_alike (fun {w' w} rest => ?_) fun _ => rfl) fun _ => ?_
    · exact congrArg
        (fun w : World => { w with calls := .fetch previous size batch a :: w.calls }) rest
    · cases picks with
      | nil => exact .pure _
      | cons pick rest => exact ((memoizing_sharing ms).updateCurrent _).bind fun _ => .pure _

namespace Machine

theorem param_alike (a : Address) (start : Value) (mean sd : Float) (key : Option Random.Key) :
    Mirrors (memoizing ms) id (param a start mean sd key) (param a start mean sd key) := by
  refine ((memoizing_sharing ms).relative a).bind fun rel => ?_
  extract_lets looks
  have looked : ∀ r, Mirrors (memoizing ms) id (looks r) (looks r) := by
    refine fun _ => get_alike (fun w => ?_) fun {w' w} rest => ?_
    · cases w.params.get? rel with
      | some v => exact .pure v
      | none =>
        refine ((memoizing_sharing ms).makeParam start mean sd key).bind fun v =>
          Mirrors.bind (modify_alike (fun {w' w} rest => ?_) fun _ => rfl) fun _ =>
            (note_alike _ _).bind fun _ => .pure v
        exact congrArg (fun w : World => { w with params := w.params.insert rel v }) rest
    · rw [show w'.params = w.params from
        show w'.hushed.params = w.hushed.params from congrArg _ rest]
  exact .ite ((Mirrors.throw (φ := id) (.same _)).bind looked) (looked ())

theorem newMemo_alike {function : Value} (untabled : function.tabled ms = false) (bound : Value) :
    Mirrors (memoizing ms) id (newMemo function bound) (newMemo function bound) := by
  obtain ⟨e, refused⟩ | ⟨n, _, added⟩ := newMemo_cases function bound
  · rw [refused]
    exact .throw (.same e)
  · rw [added]
    intro i w' w (alike : Alike ms w' w)
    exact ⟨congrArg (Value.memo · (newMemo.nameOf function)) alike.size.symm, alike.push untabled⟩

theorem compareKnown_alike (m : Memo) (key : String) (value : Value) :
    Mirrors (memoizing ms) id (compareKnown m key value) (compareKnown m key value) :=
  .ite ((note_alike _ _).bind fun _ => (Run.lift_mirrors _).bind fun _ => (Run.lift_mirrors _).bind fun _ =>
    (Run.lift_mirrors _).bind fun _ => .ite (note_alike _ _) (.pure ())) (.pure ())

theorem memoAt_eq {table : Nat} {w : World} {m : Memo} (found : w.memos[table]? = some m) :
    memoAt table w = .ok m w := by
  unfold memoAt
  rw [bind_of_ok (show (get : Run World) w = .ok w w from rfl), found]
  rfl

theorem memoAt_none {table : Nat} {w : World} (absent : w.memos[table]? = none) :
    memoAt table w = .error .illTyped w := by
  unfold memoAt
  rw [bind_of_ok (show (get : Run World) w = .ok w w from rfl), absent]
  rfl

section

variable {table : Nat} (unknown : tableKnown ms table = false)
include unknown

/-- The tables of other functions are the same, and have other functions. -/
theorem memoAt_alike {f : Memo → Run α} {g : Memo → Run β}
    (rest : ∀ m, m.function.tabled ms = false → Mirrors (memoizing ms) φ (f m) (g m)) :
    Mirrors (memoizing ms) φ (memoAt table >>= f) (memoAt table >>= g) := by
  intro i w' w (alike : Alike ms w' w)
  cases found : w.memos[table]? with
  | none =>
    rw [bind_of_error (memoAt_none found),
      bind_of_error (memoAt_none ((alike.others unknown).trans found))]
    exact ⟨.same _, alike⟩
  | some m =>
    rw [bind_of_ok (memoAt_eq found), bind_of_ok (memoAt_eq ((alike.others unknown).trans found))]
    exact rest m (alike.plain unknown found) i w' w alike

theorem setMemo_alike {m : Memo} (untabled : m.function.tabled ms = false) :
    Mirrors (memoizing ms) id (setMemo table m) (setMemo table m) :=
  fun _ _ _ (alike : Alike ms _ _) => ⟨rfl, alike.set unknown untabled⟩

theorem callMemo_alike (args : List Value) (a : Address) (s : Store) (k : Rest) :
    Mirrors (memoizing ms) (Control.bare ms) (callMemo table args a s k)
      (callMemo table args a s (k.bare ms)) := by
  refine (Run.lift_mirrors _).bind fun key => memoAt_alike unknown fun m untabled => .ite ?_ ?_
  · refine (Run.lift_mirrors _).bind fun (v, cache) => ?_
    exact (setMemo_alike (m := { m with cache }) unknown untabled).bind fun _ =>
      .pure (Control.give k s v)
  · refine .pure_of_eq ?_
    rw [Control.bare, Value.bare_of_untabled untabled]
    rfl

theorem settle_alike {m : Memo} (untabled : m.function.tabled ms = false) (cache : Cache Value) :
    Mirrors (memoizing ms) id (settle table m cache) (settle table m cache) := by
  have fills (announced : Bool) := setMemo_alike (m := { m with cache, announced }) unknown untabled
  refine get_alike (fun w => .ite ((fills true).bind fun _ => note_alike _ _) (fills m.announced))
    fun {w' w} rest => ?_
  rw [show w'.sizeNotice = w.sizeNotice from
    show w'.hushed.sizeNotice = w.hushed.sizeNotice from congrArg _ rest]

theorem remember_alike (key : String) (value : Value) :
    Mirrors (memoizing ms) id (remember table key value) (remember table key value) := by
  rw [remember_eq_bind]
  refine memoAt_alike unknown fun m untabled => (compareKnown_alike m key value).bind fun _ =>
    (Run.lift_mirrors _).bind ?_
  rintro ⟨cache, _ | dropped⟩
  · exact settle_alike unknown untabled cache
  · exact (note_alike _ _).bind fun _ => settle_alike unknown untabled cache

end

theorem nextVisit_alike (pass : Pass) (s : Store) (k : Rest) :
    Mirrors (memoizing ms) (Control.bare ms) (nextVisit pass s k)
      (nextVisit (pass.bare ms) s (k.bare ms)) := by
  obtain ⟨data, function, address, relative, remaining, results⟩ := pass
  cases remaining with
  | nil => exact (finishPass_alike relative).bind fun _ => .pure (Control.give k s (.tuple results.reverse))
  | cons i remaining =>
    unfold nextVisit
    dsimp only [Pass.bare]
    cases data[i.toNat]? with
    | none => exact .throw (.same _)
    | some x =>
      exact .pure (Control.call function [x, .int i] (address.element i) s
        (.visit ⟨data, function, address, relative, remaining, results⟩ k))

theorem checkIndices_mirrors {ι : Type} {T : Tie ι World World} (given : Value) (size : Nat) :
    Mirrors T id (checkIndices given size) (checkIndices given size) := by
  unfold checkIndices
  dsimp only
  split
  · exact .throw (.same _)
  · refine (Mirrors.mapM_same (fun x => ?_) _).bind fun indices => ?_
    · split
      · exact .pure _
      · exact .throw (.same _)
      · exact .throw (.same _)
    · exact (Mirrors.forIn (fun n _ => .ite ((Mirrors.throw (φ := id) (.same _)).bind fun _ => .pure _)
        (.pure _)) _ _).bind fun _ => .pure _

theorem selectPass_alike (a : Address) (items : List Value) (function size : Value) :
    Mirrors (memoizing ms) (Pass.bare ms) (selectPass a items function size)
      (selectPass a items (function.bare ms) size) := by
  refine (memoizing_sharing ms).current.bind fun _ => ((memoizing_sharing ms).relative a).bind
    fun rel => .ite (.throw (.same _)) ?_
  refine get_alike (fun w => (fetch_alike _ _ _ _).bind fun given => (checkIndices_mirrors _ _).bind
    fun indices => ?_) fun {w' w} rest => ?_
  · refine Mirrors.bind (modify_alike (fun {w' w} rest => ?_) fun _ => rfl) fun _ =>
      (note_alike _ _).bind fun _ => .pure (Pass.mk items function a rel _ [])
    exact congrArg (fun w : World => { w with minibatches := w.minibatches.insert rel indices }) rest
  · rw [show w'.minibatches = w.minibatches from
      show w'.hushed.minibatches = w.hushed.minibatches from congrArg _ rest]

theorem beginPass_alike (a : Address) (data function : Value) (batch : Option Value) (s : Store)
    (k : Rest) :
    Mirrors (memoizing ms) (Control.bare ms) (beginPass a data function batch s k)
      (beginPass a data (function.bare ms) batch s (k.bare ms)) := by
  have sized : passSize data (function.bare ms) batch = passSize data function batch := by
    simp only [passSize, Value.isCallable_bare]
  rw [beginPass_eq, beginPass_eq, sized]
  exact (Run.lift_mirrors _).bind fun size => .ite (.pure (Control.give k s (.tuple [])))
    ((selectPass_alike a _ function size).bind fun pass => nextVisit_alike pass s k)

theorem prepare_alike (a : Address) (function method : Value) (key : Option Random.Key)
    (options : Options) (picks : Option (List Value)) :
    Mirrors (memoizing ms) (Inference.bare ms) (prepare a function method key options picks)
      (prepare a (function.bare ms) method key options picks) := by
  have same : selected (function.bare ms) method options = selected function method options := by
    simp only [selected, Value.isCallable_bare]
  rw [prepare_eq, prepare_eq, same]
  exact (Run.lift_mirrors _).bind fun method => ((memoizing_sharing ms).keyFor key).bind fun key =>
    (Run.lift_mirrors _).bind fun strategy => (note_alike _ _).bind fun _ =>
      .pure (Inference.mk ⟨method.title, key, a, picks⟩ strategy (.entry function a))

/-- A call of anything but one of the tables. -/
theorem enter_alike {cx : Context} {function : Value} (untabled : function.tabled ms = false)
    (args : List Value) (a : Address) (s : Store) (k : Rest) :
    Mirrors (memoizing ms) (Control.bare ms) (enter cx function args a s k)
      (enter (cx.bare ms) function args a s (k.bare ms)) := by
  cases function with
  | memo table name => exact callMemo_alike untabled args a s k
  | function name =>
    unfold enter
    dsimp only [Context.bare]
    cases cx.program.find? name with
    | none => exact .throw (.same _)
    | some d =>
      exact .ite (.throw (.same _)) (.pure (Control.eval d.body (d.params.zip args) a s k))
  | _ => exact .throw (.same _)

section

variable {cx : Context}

/-- A computation moves with the tables as without. -/
def MovesAlike (ms : List Remembered) (cx : Context) (vars : Vars) (a : Address) (s : Store) (k : Rest)
    (c : Comp) : Prop :=
  Mirrors (memoizing ms) (Move.bare ms) (advanceComp cx c vars a s k)
    (advanceComp (cx.bare ms) c vars a s (k.bare ms))

theorem read_alike {α : Type} {r r' : Except Failure α} {f g : α → Run Move} (same : r = r')
    (rest : ∀ a, Mirrors (memoizing ms) (Move.bare ms) (f a) (g a)) :
    Mirrors (memoizing ms) (Move.bare ms) (Run.lift r >>= f) (Run.lift r' >>= g) := by
  rw [same]
  exact (Run.lift_mirrors r').bind rest

theorem gives_alike (k : Rest) (s : Store) (v : Value) : Mirrors (memoizing ms) (Move.bare ms)
    (pure (.go (.give k s v))) (pure (.go (.give (k.bare ms) s v))) := .pure (Move.go (.give k s v))

variable {vars : Vars} {a : Address} {s : Store} {k : Rest}

/-- What is called may be a table, which is bare on the right. -/
theorem called_alike {e : Expr} {f g : Value → Run Move}
    (calls : cx.calls ms (bareScope ms cx vars s a) e = true)
    (rest : ∀ v, Mirrors (memoizing ms) (Move.bare ms) (f v) (g (v.bare ms))) :
    Mirrors (memoizing ms) (Move.bare ms)
      (Run.lift (e.eval ⟨cx.program, cx.globals, vars, s, a⟩) >>= f)
      (Run.lift (e.eval (bareScope ms cx vars s a)) >>= g) := by
  rw [evalCalled_bare vars s a calls]
  cases e.eval ⟨cx.program, cx.globals, vars, s, a⟩ with
  | error e => exact (Mirrors.throw (φ := Value.bare ms) (.same e)).bind rest
  | ok v => exact rest v

/-! ### What is run next -/

theorem sequence_alike (steps : List Comp) : MovesAlike ms cx vars a s k (.sequence steps) := by
  match steps with
  | [] => exact gives_alike k s .absent
  | [c] => exact .pure (Move.go (.eval c vars a s k))
  | c :: c' :: rest => exact .pure (Move.go (.eval c vars a s (.sequence (c' :: rest) vars a k)))

theorem choose_alike {test : Expr} (reads : cx.reads ms vars test.names = true) (yes no : Comp) :
    MovesAlike ms cx vars a s k (.choose test yes no) :=
  read_alike (eval_bare vars s a reads) fun v =>
    .pure (Move.go (.eval (if v.isTrue then yes else no) vars a s k))

/-! ### Steps handed to the strategy in charge -/

theorem sample_alike {t : Option Expr} {d : DistExpr} (site : cx.readsPart ms vars t = true)
    (dist : cx.reads ms vars d.names = true) : MovesAlike ms cx vars a s k (.sample t d) :=
  read_alike (site_bare vars s a site) fun place => read_alike (evalDist_bare vars s a dist) fun d =>
    (memoizing_sharing ms).current.bind fun _ => .pure (Move.rest (.sample s k place d))

theorem factor_alike {t : Option Expr} {e : Expr} (site : cx.readsPart ms vars t = true)
    (score : cx.reads ms vars e.names = true) : MovesAlike ms cx vars a s k (.factor t e) :=
  read_alike (site_bare vars s a site) fun place => read_alike (eval_bare vars s a score) fun _ =>
    (memoizing_sharing ms).current.bind fun _ => read_alike rfl fun x =>
      .pure (Move.rest (.factor s k place x))

theorem observe_alike {t : Option Expr} {d : DistExpr} {e : Expr}
    (site : cx.readsPart ms vars t = true) (dist : cx.reads ms vars d.names = true)
    (value : cx.reads ms vars e.names = true) : MovesAlike ms cx vars a s k (.observe t d e) :=
  read_alike (site_bare vars s a site) fun place => read_alike (evalDist_bare vars s a dist) fun _ =>
    read_alike (eval_bare vars s a value) fun v => (memoizing_sharing ms).current.bind fun _ =>
      read_alike rfl fun x => .pure (Move.rest (.factor s (.replace v k) place x))

/-! ### Calls -/

theorem call_alike {t : Option Expr} {f : Expr} {args : List Expr}
    (site : cx.readsPart ms vars t = true) (calls : cx.calls ms (bareScope ms cx vars s a) f = true)
    (given : cx.reads ms vars (Expr.allNames args) = true) :
    MovesAlike ms cx vars a s k (.call t f args) :=
  called_alike calls fun f => read_alike (site_bare vars s a site) fun place =>
    read_alike (evalAll_bare vars s a given) fun args => .pure (Move.go (.call f args place s k))

theorem apply_alike {t : Option Expr} {f : Expr} {args : List Expr}
    (site : cx.readsPart ms vars t = true) (calls : cx.calls ms (bareScope ms cx vars s a) f = true)
    (given : cx.reads ms vars (Expr.allNames args) = true) :
    MovesAlike ms cx vars a s k (.apply t f args) :=
  read_alike (site_bare vars s a site) fun place => called_alike calls fun f =>
    read_alike (evalAll_bare vars s a given) fun args => .pure (Move.go (.call f args place s k))

theorem map_alike {t batch : Option Expr} {data f : Expr} (site : cx.readsPart ms vars t = true)
    (items : cx.reads ms vars data.names = true)
    (calls : cx.calls ms (bareScope ms cx vars s a) f = true)
    (size : cx.readsPart ms vars batch = true) : MovesAlike ms cx vars a s k (.map t data f batch) :=
  read_alike (site_bare vars s a site) fun place => read_alike (eval_bare vars s a items) fun data =>
    called_alike calls fun f => read_alike (optional_bare vars s a size) fun batch =>
      (beginPass_alike place data f batch s k).bind fun next => .pure (Move.go next)

theorem infer_alike {t : Option Expr} {f method : Expr} {options : List (String × Expr)}
    (permitted : cx.permitsComp ms (bareScope ms cx vars s a) (.infer t f method options) = true) :
    MovesAlike ms cx vars a s k (.infer t f method options) := by
  have moves := advance_infer cx t f method options vars a s k
  have moves' := advance_infer (cx.bare ms) t f method options vars a s (k.bare ms)
  rw [advance] at moves moves'
  rw [MovesAlike, moves, moves', show InferCall.read ⟨(cx.bare ms).program, (cx.bare ms).globals, vars, s, a⟩
    t f method options = _ from inferCall_bare vars s a permitted]
  cases InferCall.read ⟨cx.program, cx.globals, vars, s, a⟩ t f method options with
  | error e => exact .throw (.same e)
  | ok c =>
    exact (prepare_alike c.place c.function c.method c.key c.options none).bind fun i =>
      .pure (Move.infer i s k)

/-! ### What is made and kept -/

theorem set_alike {key e : Expr} (place : cx.reads ms vars key.names = true)
    (value : cx.reads ms vars e.names = true) : MovesAlike ms cx vars a s k (.set key e) :=
  read_alike (eval_bare vars s a place) fun _ => read_alike (eval_bare vars s a value) fun _ =>
    read_alike rfl fun s => gives_alike k s .absent

theorem relative_alike {t : Option Expr} (site : cx.readsPart ms vars t = true) :
    MovesAlike ms cx vars a s k (.relative t) :=
  read_alike (site_bare vars s a site) fun place =>
    ((memoizing_sharing ms).relative place).bind fun a => gives_alike k s (.address a.tokens)

theorem cache_alike {t bound : Option Expr} {f : Expr} (site : cx.readsPart ms vars t = true)
    (function : cx.reads ms vars f.names = true)
    (calls : cx.calls ms (bareScope ms cx vars s a) f = true)
    (size : cx.readsPart ms vars bound = true) : MovesAlike ms cx vars a s k (.cache t f bound) := by
  refine read_alike (site_bare vars s a site) fun _ => ?_
  simp only [eval_bare vars s a function, optional_bare vars s a size]
  change Mirrors _ _ (Run.lift (f.eval (bareScope ms cx vars s a)) >>= _)
    (Run.lift (f.eval (bareScope ms cx vars s a)) >>= _)
  cases known : f.eval (bareScope ms cx vars s a) with
  | error e => exact .throw (.same e)
  | ok f =>
    have untabled := untabled_of_calls vars s a calls known
    rw [show (Run.lift (.ok f) : Run Value) = pure f from rfl, pure_bind, pure_bind]
    exact read_alike rfl fun bound => (newMemo_alike untabled _).bind fun v => gives_alike k s v

theorem paramMove_alike {t mean sd seed : Option Expr} {start : Expr}
    (site : cx.readsPart ms vars t = true) (first : cx.reads ms vars start.names = true)
    (middle : cx.readsPart ms vars mean = true) (width : cx.readsPart ms vars sd = true)
    (seeded : cx.readsPart ms vars seed = true) :
    MovesAlike ms cx vars a s k (.param t start mean sd seed) :=
  read_alike (site_bare vars s a site) fun place => read_alike (eval_bare vars s a first) fun start =>
    read_alike (optional_bare vars s a middle) fun _ => read_alike (optional_bare vars s a width) fun _ =>
      read_alike (optional_bare vars s a seeded) fun _ => read_alike rfl fun key =>
        read_alike rfl fun mean => read_alike rfl fun sd =>
          (param_alike place start mean sd key).bind fun v => gives_alike k s v

theorem tensor_alike {t : Option Expr} {e : Expr} (form : TensorForm)
    (site : cx.readsPart ms vars t = true) (cells : cx.reads ms vars e.names = true) :
    MovesAlike ms cx vars a s k (.tensor form t e) :=
  read_alike (site_bare vars s a site) fun _ => read_alike (eval_bare vars s a cells) fun _ =>
    read_alike rfl fun v => gives_alike k s v

/-- What is only read is the same on both sides, what is called its function on the right. -/
theorem advanceComp_alike {c : Comp}
    (permitted : cx.permitsComp ms (bareScope ms cx vars s a) c = true) (k : Rest) :
    MovesAlike ms cx vars a s k c := by
  cases c with simp only [Context.permitsComp, Bool.and_eq_true] at permitted
  | ret e => exact read_alike (eval_bare vars s a permitted) fun v => gives_alike k s v
  | bind name first rest => exact .pure (Move.go (.eval first vars a s (.bind name rest vars a k)))
  | sequence steps => exact sequence_alike steps
  | choose test yes no => exact choose_alike permitted yes no
  | bounce c => exact .pure (Move.go (.eval c vars a s k))
  | sample t d => exact sample_alike permitted.1 permitted.2
  | factor t e => exact factor_alike permitted.1 permitted.2
  | observe t d e => exact observe_alike permitted.1.1 permitted.1.2 permitted.2
  | set key e => exact set_alike permitted.1 permitted.2
  | call t f args => exact call_alike permitted.1.1 permitted.1.2 permitted.2
  | apply t f args => exact apply_alike permitted.1.1 permitted.1.2 permitted.2
  | relative t => exact relative_alike permitted
  | map t data f batch =>
    exact map_alike permitted.1.1.1 permitted.1.1.2 permitted.1.2 permitted.2
  | cache t f bound =>
    exact cache_alike permitted.1.1.1 permitted.1.1.2 permitted.1.2 permitted.2
  | param t start mean sd seed =>
    exact paramMove_alike permitted.1.1.1.1 permitted.1.1.1.2 permitted.1.1.2 permitted.1.2 permitted.2
  | tensor form t e => exact tensor_alike form permitted.1 permitted.2
  | infer t f method options =>
    exact infer_alike (by simpa only [Context.permitsComp, Bool.and_eq_true] using permitted)
  | emit e =>
    exact read_alike (eval_bare vars s a permitted) fun v =>
      (emit_alike v).bind fun _ => gives_alike k s .absent
  | raise message => exact .throw (.same _)
  | stop e =>
    exact read_alike (eval_bare vars s a permitted) fun v => .pure (Move.rest (.stray v))
  | unknown _ => exact .throw (.same _)

/-- Every permitted move is the same with the tables, but for the calls of these. -/
theorem advance_alike {control : Control}
    (untabled : ∀ f args a s k, control = .call f args a s k → f.tabled ms = false)
    (permitted : cx.permits ms (control.bare ms) = true) :
    Mirrors (memoizing ms) (Move.bare ms) (advance cx control)
      (advance (cx.bare ms) (control.bare ms)) := by
  cases control with
  | eval c vars a s k => exact advanceComp_alike permitted k
  | call f args a s k =>
    have untabled := untabled f args a s k rfl
    rw [Control.bare, Value.bare_of_untabled untabled]
    exact (enter_alike untabled args a s k).bind fun next => .pure (Move.go next)
  | give k s v =>
    cases k with
    | halt => exact .pure (Move.rest (.exit s v))
    | deliver => exact .pure (Move.rest (.stray v))
    | entry f a => exact .pure (Move.go (.call f [] a s .halt))
    | bind name body vars a k => exact .pure (Move.go (.eval body ((name, v) :: vars) a s k))
    | sequence steps vars a k => exact .pure (Move.go (.eval (.sequence steps) vars a s k))
    | replace observed k => exact .pure (Move.go (.give k s observed))
    | remember table key k =>
      have unknown : tableKnown ms table = false := by simpa [Context.permits, Control.bare, Rest.bare] using permitted
      exact (remember_alike unknown key v).bind fun _ => .pure (Move.go (.give k s v))
    | visit pass k =>
      exact (nextVisit_alike { pass with results := v :: pass.results } s k).bind fun next =>
        .pure (Move.go next)

end

end Machine

end

end ProbCore
