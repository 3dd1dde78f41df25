import ProbCore.Proofs.MachineMoves

/-! What a run comes to before it is done with a computation does not depend on what remains
after it. A call therefore runs above any rest as it runs on its own, and what is known of the
executions of a function on its own holds wherever it is called. -/

namespace ProbCore

namespace Rest

/-- A rest with another one below it, where nothing was. -/
def onto : Rest → Rest → Rest
  | halt, base => base
  | deliver, _ => deliver
  | entry function a, _ => entry function a
  | bind name body vars a k, base => bind name body vars a (k.onto base)
  | sequence steps vars a k, base => sequence steps vars a (k.onto base)
  | replace value k, base => replace value (k.onto base)
  | remember table key k, base => remember table key (k.onto base)
  | visit pass k, base => visit pass (k.onto base)

/-- Whether nothing receives the value at the outermost end. -/
def unclaimed : Rest → Bool
  | halt => true
  | deliver | entry .. => false
  | bind _ _ _ _ k | sequence _ _ _ k | replace _ k | remember _ _ k | visit _ k => k.unclaimed

theorem onto_onto (k middle base : Rest) : (k.onto middle).onto base = k.onto (middle.onto base) := by
  induction k with
  | halt | deliver | entry => rfl
  | bind _ _ _ _ _ ih | sequence _ _ _ _ ih | replace _ _ ih | remember _ _ _ ih | visit _ _ ih =>
    simp only [onto, ih]

theorem onto_halt (k : Rest) : k.onto halt = k := by
  induction k with
  | halt | deliver | entry => rfl
  | bind _ _ _ _ _ ih | sequence _ _ _ _ ih | replace _ _ ih | remember _ _ _ ih | visit _ _ ih =>
    simp only [onto, ih]

theorem unclaimed_onto {k base : Rest} (above : k.unclaimed = true) (below : base.unclaimed = true) :
    (k.onto base).unclaimed = true := by
  induction k with
  | halt => exact below
  | deliver | entry => exact above
  | bind _ _ _ _ _ ih | sequence _ _ _ _ ih | replace _ _ ih | remember _ _ _ ih | visit _ _ ih =>
    exact ih above

end Rest

namespace Control

def onto : Control → Rest → Control
  | eval c vars a s k, base => eval c vars a s (k.onto base)
  | call function args a s k, base => call function args a s (k.onto base)
  | give k s value, base => give (k.onto base) s value

/-- What a computation delivers when nobody receives it. -/
def delivered? : Control → Option (Store × Value)
  | give .halt s value => some (s, value)
  | _ => none

def unclaimed : Control → Bool
  | eval _ _ _ _ k | call _ _ _ _ k | give k _ _ => k.unclaimed

theorem eq_of_delivered {c : Control} {s : Store} {v : Value} (delivered : c.delivered? = some (s, v)) :
    c = give .halt s v := by
  unfold delivered? at delivered
  split at delivered
  · cases delivered
    rfl
  · cases delivered

theorem onto_onto (c : Control) (middle base : Rest) :
    (c.onto middle).onto base = c.onto (middle.onto base) := by
  cases c <;> simp only [onto, Rest.onto_onto]

theorem onto_halt (c : Control) : c.onto .halt = c := by
  cases c <;> simp only [onto, Rest.onto_halt]

theorem unclaimed_onto {c : Control} {base : Rest} (above : c.unclaimed = true)
    (below : base.unclaimed = true) : (c.onto base).unclaimed = true := by
  cases c <;> exact Rest.unclaimed_onto above below

/-- The passes over data that the strategy in charge is told to be complete. -/
def told : Control → List Address
  | give (.visit ⟨_, _, _, relative, [], _⟩ _) _ _ => [relative]
  | _ => []

end Control

def Step.onto : Step Rest Dist Float → Rest → Step Rest Dist Float
  | .sample s k a d, base => .sample s (k.onto base) a d
  | .factor s k a x, base => .factor s (k.onto base) a x
  | .exit s v, _ => .exit s v
  | .stray v, _ => .stray v

def Step.unclaimed : Step Rest Dist Float → Bool
  | .sample _ k _ _ | .factor _ k _ _ => k.unclaimed
  | .exit .. | .stray _ => true

namespace Move

def onto (base : Rest) : Move → Move
  | go next => go (next.onto base)
  | rest step => rest (step.onto base)
  | infer i s k => infer i s (k.onto base)

def unclaimed : Move → Bool
  | go next => next.unclaimed
  | rest step => step.unclaimed
  | infer _ _ k => k.unclaimed

theorem onto_onto (m : Move) (middle base : Rest) :
    (m.onto middle).onto base = m.onto (middle.onto base) := by
  cases m with
  | go next => exact congrArg go (next.onto_onto middle base)
  | rest step => cases step <;> simp only [onto, Step.onto, Rest.onto_onto]
  | infer i s k => exact congrArg (infer i s) (k.onto_onto middle base)

theorem unclaimed_onto {m : Move} {base : Rest} (above : m.unclaimed = true)
    (below : base.unclaimed = true) : (m.onto base).unclaimed = true := by
  cases m with
  | go next => exact Control.unclaimed_onto above below
  | rest step => cases step <;> first | rfl | exact Rest.unclaimed_onto above below
  | infer i s k => exact Rest.unclaimed_onto above below

end Move

/-- The passes over data that strategies have been told to be complete, latest first. -/
def World.completed (w : World) : List Address :=
  w.calls.filterMap fun
    | .final a => some a
    | .fetch .. => none

/-- Whether the strategy in charge keeps a record of what it is asked and told. -/
def World.recording (w : World) : Bool :=
  match w.strategies with
  | { picks := some _, .. } :: _ => true
  | _ => false

namespace Run

variable {α β γ : Type}

/-- A computation that tells no strategy that a pass over data is complete. -/
def Silent (x : Run α) : Prop := ∀ w, (ended (x w)).completed = w.completed

namespace Silent

variable {x : Run α}

theorem pure (a : α) : Silent (pure a : Run α) := fun _ => rfl

theorem throw (e : Failure) : Silent (throw e : Run α) := fun _ => rfl

theorem bind_yields {f : α → Run β} (first : Silent x) (rest : ∀ a, Yields x a → Silent (f a)) :
    Silent (x >>= f) := by
  intro w
  have kept := first w
  cases began : x w with
  | ok a middle =>
    rw [began] at kept
    rw [bind_of_ok began, rest a ⟨w, middle, began⟩ middle]
    exact kept
  | error e middle =>
    rw [began] at kept
    rw [bind_of_error began]
    exact kept

theorem bind {f : α → Run β} (first : Silent x) (rest : ∀ a, Silent (f a)) : Silent (x >>= f) :=
  first.bind_yields fun a _ => rest a

theorem lift (r : Except Failure α) : Silent (Run.lift r) := by
  cases r with
  | ok a => exact .pure a
  | error e => exact .throw e

theorem ite {c : Prop} [Decidable c] {y : Run α} (yes : Silent x) (no : Silent y) :
    Silent (if c then x else y) := by
  split
  · exact yes
  · exact no

theorem get {f : World → Run α} (rest : ∀ w, Silent (f w)) : Silent (get >>= f) :=
  fun w => rest w w

theorem modify {f : World → World} (kept : ∀ w, (f w).completed = w.completed) :
    Silent (modify f : Run Unit) := kept

theorem note (n : Notice) : Silent (Run.note n) := fun _ => rfl

theorem mapM {f : γ → Run α} (each : ∀ c, Silent (f c)) (cs : List γ) : Silent (cs.mapM f) := by
  induction cs with
  | nil =>
    rw [List.mapM_nil]
    exact .pure []
  | cons c cs ih =>
    rw [List.mapM_cons]
    exact (each c).bind fun a => ih.bind fun as => .pure (a :: as)

theorem forIn {f : γ → β → Run (ForInStep β)} (each : ∀ c b, Silent (f c b)) (cs : List γ) (b : β) :
    Silent (forIn cs b f) := by
  induction cs generalizing b with
  | nil =>
    rw [List.forIn_nil]
    exact .pure b
  | cons c cs ih =>
    rw [List.forIn_cons]
    refine (each c b).bind fun next => ?_
    cases next with
    | done b => exact .pure b
    | yield b => exact ih b

end Silent

theorem current_silent : Silent current := by
  refine .get fun w => ?_
  split
  · exact .pure _
  · exact .throw _

theorem relative_silent (a : Address) : Silent (relative a) := by
  refine .get fun w => ?_
  split
  · exact .pure _
  · exact .pure _

theorem updateCurrent_silent (f : Active → Active) : Silent (updateCurrent f) := by
  intro w
  obtain ⟨strategies, _⟩ := w
  cases strategies <;> rfl

theorem fetch_silent (previous : Option (List Int)) (size : Nat) (batch : Value) (a : Address) :
    Silent (fetch previous size batch a) := by
  refine current_silent.bind fun active => ?_
  split
  · exact .pure _
  · refine Silent.bind (.modify fun _ => rfl) fun _ => ?_
    split
    · exact .pure _
    · exact (updateCurrent_silent _).bind fun _ => .pure _

theorem splitKey_silent : Silent splitKey := by
  refine current_silent.bind fun a => ?_
  split
  · exact .throw _
  · exact (updateCurrent_silent _).bind fun _ => .pure _

theorem emit_silent (v : Value) : Silent (emit v) := by
  refine .modify fun w => ?_
  split <;> rfl

end Run

namespace Machine

open Run

theorem memoAt_silent (table : Nat) : Silent (memoAt table) := by
  refine .get fun w => ?_
  split
  · exact .pure _
  · exact .throw _

theorem setMemo_silent (table : Nat) (m : Memo) : Silent (setMemo table m) := .modify fun _ => rfl

theorem newMemo_silent (function bound : Value) : Silent (newMemo function bound) := by
  obtain ⟨e, refused⟩ | ⟨n, _, added⟩ := newMemo_cases function bound
  · rw [refused]
    exact .throw e
  · rw [added]
    exact fun _ => rfl

theorem compareKnown_silent (m : Memo) (key : String) (value : Value) : Silent (compareKnown m key value) :=
  .ite (.bind (.note _) fun _ => (Silent.lift _).bind fun _ => (Silent.lift _).bind fun _ =>
    (Silent.lift _).bind fun _ => .ite (.note _) (.pure _)) (.pure _)

theorem settle_silent (table : Nat) (m : Memo) (cache : Cache Value) : Silent (settle table m cache) :=
  .get fun _ => .ite ((setMemo_silent table _).bind fun _ => .note _) (setMemo_silent table _)

theorem remember_silent (table : Nat) (key : String) (value : Value) :
    Silent (remember table key value) := by
  rw [remember_eq_bind]
  refine (memoAt_silent table).bind fun m => (compareKnown_silent m key value).bind fun _ => (Silent.lift _).bind ?_
  rintro ⟨cache, _ | dropped⟩
  · exact settle_silent table m cache
  · exact Silent.bind (.note _) fun _ => settle_silent table m cache

theorem checkIndices_silent (given : Value) (size : Nat) : Silent (checkIndices given size) := by
  unfold checkIndices
  dsimp only
  split
  · exact .throw _
  · refine (Silent.mapM (fun x => ?_) _).bind fun indices => ?_
    · split
      · exact .pure _
      · exact .throw _
      · exact .throw _
    · exact (Silent.forIn (fun n _ => .ite ((Silent.throw _).bind fun _ => .pure _) (.pure _)) _ _).bind
        fun _ => .pure _

theorem makeParam_silent (start : Value) (mean sd : Float) (key : Option Random.Key) :
    Silent (makeParam start mean sd key) := by
  have fills (dims : List Value) : Silent (makeParam (.list dims) mean sd key) := by
    unfold makeParam
    refine .ite ((Silent.lift _).bind fun _ => .pure _) ?_
    cases key with
    | some key => exact (Silent.lift _).bind fun _ => .pure _
    | none => exact splitKey_silent.bind fun _ => (Silent.lift _).bind fun _ => .pure _
  cases start with
  | list dims => exact fills dims
  | tuple dims => exact fills dims
  | _ => exact .pure _

theorem param_silent (a : Address) (start : Value) (mean sd : Float) (key : Option Random.Key) :
    Silent (param a start mean sd key) := by
  refine (relative_silent a).bind fun rel => ?_
  extract_lets looks
  have looked : ∀ r, Silent (looks r) := by
    refine fun _ => .get fun w => ?_
    split
    · exact .pure _
    · exact (makeParam_silent start mean sd key).bind fun v =>
        Silent.bind (.modify fun _ => rfl) fun _ => Silent.bind (.note _) fun _ => .pure _
  exact .ite ((Silent.throw _).bind looked) (looked ())

theorem prepare_silent (a : Address) (function method : Value) (key : Option Random.Key)
    (options : Options) (picks : Option (List Value)) :
    Silent (prepare a function method key options picks) := by
  rw [prepare_eq]
  refine (Silent.lift _).bind fun method => ?_
  have keyed : Silent (keyFor key) := fun w => by
    rw [keyFor_eq]
    rfl
  exact keyed.bind fun key => (Silent.lift _).bind fun _ => Silent.bind (.note _) fun _ => .pure _

/-- A move that does not look at what remains of the run, and leaves it below whatever it puts
there. It completes no pass over data. -/
def Local (x : Rest → Run Move) : Prop :=
  ∃ alone : Run Move, (∀ k, x k = Move.onto k <$> alone) ∧
    (∀ m, Yields alone m → m.unclaimed = true) ∧ Silent alone

namespace Local

variable {α : Type}

theorem of_pure {m : Rest → Move} (below : ∀ k, m k = (m .halt).onto k)
    (unclaimed : (m .halt).unclaimed = true) : Local fun k => pure (m k) := by
  refine ⟨pure (m .halt), fun k => ?_, fun m' yields => ?_, .pure _⟩
  · dsimp only
    rw [below k]
    rfl
  · rw [yields.pure]
    exact unclaimed

theorem go {next : Rest → Control} (below : ∀ k, next k = (next .halt).onto k)
    (unclaimed : (next .halt).unclaimed = true) : Local fun k => pure (.go (next k)) :=
  .of_pure (fun k => congrArg Move.go (below k)) unclaimed

theorem throw (e : Failure) : Local fun _ => MonadExcept.throw e := by
  refine ⟨MonadExcept.throw e, fun _ => rfl, fun m yields => ?_, .throw e⟩
  obtain ⟨w, w', returned⟩ := yields
  cases returned

theorem bind_yields {x : Run α} {f : α → Rest → Run Move} (first : Silent x)
    (rest : ∀ a, Yields x a → Local (f a)) : Local fun k => x >>= fun a => f a k := by
  have each : ∀ a, ∃ alone : Run Move, Yields x a → (∀ k, f a k = Move.onto k <$> alone) ∧
      (∀ m, Yields alone m → m.unclaimed = true) ∧ Silent alone := by
    intro a
    by_cases possible : Yields x a
    · obtain ⟨alone, holds⟩ := rest a possible
      exact ⟨alone, fun _ => holds⟩
    · exact ⟨MonadExcept.throw .outOfFuel, fun yields => absurd yields possible⟩
  obtain ⟨alone, each⟩ := Classical.axiomOfChoice each
  refine ⟨x >>= alone, fun k => ?_, fun m yields => ?_, ?_⟩
  · rw [map_bind]
    exact bind_congr_yields fun a yields => (each a yields).1 k
  · obtain ⟨a, first, yields⟩ := yields.bind
    exact (each a first).2.1 m yields
  · exact first.bind_yields fun a yields => (each a yields).2.2

theorem bind {x : Run α} {f : α → Rest → Run Move} (first : Silent x) (rest : ∀ a, Local (f a)) :
    Local fun k => x >>= fun a => f a k := .bind_yields first fun a _ => rest a

theorem lift {r : Except Failure α} {f : α → Rest → Run Move} (rest : ∀ a, Local (f a)) :
    Local fun k => Run.lift r >>= fun a => f a k := .bind (.lift r) rest

theorem ite {c : Prop} [Decidable c] {x y : Rest → Run Move} (yes : Local x) (no : Local y) :
    Local fun k => if c then x k else y k := by
  by_cases holds : c
  · simpa only [if_pos holds] using yes
  · simpa only [if_neg holds] using no

theorem onto {x : Rest → Run Move} (does : Local x) (k base : Rest) :
    x (k.onto base) = Move.onto base <$> x k := by
  obtain ⟨alone, below, _⟩ := does
  rw [below, below, ← comp_map]
  exact congrArg (· <$> alone) (funext fun m => (m.onto_onto k base).symm)

theorem unclaimed {x : Rest → Run Move} (does : Local x) {k : Rest} (held : k.unclaimed = true)
    {m : Move} (yields : Yields (x k) m) : m.unclaimed = true := by
  obtain ⟨alone, below, unclaimed, _⟩ := does
  rw [below, map_eq_pure_bind] at yields
  obtain ⟨m, first, yields⟩ := yields.bind
  rw [yields.pure]
  exact Move.unclaimed_onto (unclaimed m first) held

theorem silent {x : Rest → Run Move} (does : Local x) (k : Rest) : Silent (x k) := by
  obtain ⟨alone, below, _, silent⟩ := does
  rw [below, map_eq_pure_bind]
  exact silent.bind fun m => .pure _

end Local

theorem callMemo_local (table : Nat) (args : List Value) (a : Address) (s : Store) :
    Local fun k => Move.go <$> callMemo table args a s k := by
  unfold callMemo
  simp only [map_bind, map_pure, apply_ite (Functor.map Move.go)]
  refine .lift fun key => .bind (memoAt_silent table) fun m => .ite ?_ ?_
  · exact .lift fun _ => .bind (setMemo_silent table _) fun _ => .go (fun _ => rfl) rfl
  · exact .go (fun _ => rfl) rfl

theorem nextVisit_local {pass : Pass} (remains : pass.remaining ≠ []) (s : Store) :
    Local fun k => Move.go <$> nextVisit pass s k := by
  unfold nextVisit
  cases left : pass.remaining with
  | nil => exact absurd left remains
  | cons i remaining =>
    dsimp only
    cases pass.data[i.toNat]? with
    | none => exact .throw _
    | some x => exact .go (fun _ => rfl) rfl

/-- The batch size that the strategy in charge is told for a pass over some data, if the pass is
accepted. -/
def passSize (data function : Value) (batch : Option Value) : Except Failure Value :=
  if !data.isSequence || !function.isCallable then .error .illTyped
  else
    match batch with
    | none | some .absent => .ok (.int (data.items?.getD []).length)
    | some v =>
      match v.int? with
      | none => .error .illTyped
      | some b =>
        if 0 < b && b ≤ (data.items?.getD []).length then .ok v
        else .error (.configuration (.batchSize (data.items?.getD []).length v))

/-- The pass over some elements that the strategy in charge selects. -/
def selectPass (a : Address) (items : List Value) (function size : Value) : Run Pass := do
  let _ ← Run.current
  let rel ← Run.relative a
  if !rel.isHashable then throw .illTyped
  else
    let previous := (← get).minibatches.get? rel
    let indices ← checkIndices (← Run.fetch previous items.length size rel) items.length
    modify fun w => { w with minibatches := w.minibatches.insert rel indices }
    let visits := if indices.isEmpty then (List.range items.length).map Int.ofNat else indices
    Run.note (.mapped rel visits.length items.length)
    return ⟨items, function, a, rel, visits, []⟩

theorem beginPass_eq (a : Address) (data function : Value) (batch : Option Value) (s : Store)
    (k : Rest) :
    beginPass a data function batch s k = (do
      let size ← Run.lift (passSize data function batch)
      if (data.items?.getD []).length == 0 then return .give k s (.tuple [])
      else nextVisit (← selectPass a (data.items?.getD []) function size) s k) := by
  unfold beginPass passSize
  extract_lets items n goes check
  have visits : ∀ batch, goes batch = (do
      if n == 0 then return .give k s (.tuple [])
      else nextVisit (← selectPass a items function (batch.getD (.int n))) s k) := by
    intro batch
    dsimp only [goes]
    unfold selectPass
    simp only [bind_assoc]
    congr 2
    funext _
    congr 1
    funext rel
    by_cases hashable : (!rel.isHashable) = true
    · simp only [if_pos hashable]
      rfl
    · simp only [if_neg hashable, bind_assoc]
      rfl
  by_cases refused : (!data.isSequence || !function.isCallable) = true
  · simp only [if_pos refused]
    rfl
  · simp only [if_neg refused, check]
    cases batch with
    | none => exact visits none
    | some v =>
      cases v with
      | absent => exact visits none
      | _ =>
        dsimp only
        generalize Value.int? _ = whole
        cases whole with
        | none => rfl
        | some b =>
          dsimp only
          split
          · exact visits (some _)
          · rfl

theorem selectPass_silent (a : Address) (items : List Value) (function size : Value) :
    Silent (selectPass a items function size) := by
  refine current_silent.bind fun _ => (relative_silent a).bind fun rel => .ite (.throw _) ?_
  refine .get fun w => (fetch_silent _ _ _ _).bind fun given => (checkIndices_silent _ _).bind fun _ => ?_
  exact Silent.bind (.modify fun _ => rfl) fun _ => Silent.bind (.note _) fun _ => .pure _

theorem selectPass_remaining {a : Address} {items : List Value} {function size : Value} {pass : Pass}
    (some_there : items ≠ []) (yields : Yields (selectPass a items function size) pass) :
    pass.remaining ≠ [] := by
  obtain ⟨_, _, yields⟩ := yields.bind
  obtain ⟨rel, _, yields⟩ := yields.bind
  by_cases unhashable : (!rel.isHashable) = true
  · rw [if_pos unhashable] at yields
    obtain ⟨w, w', returned⟩ := yields
    cases returned
  · rw [if_neg unhashable] at yields
    obtain ⟨_, _, yields⟩ := yields.bind
    obtain ⟨_, _, yields⟩ := yields.bind
    obtain ⟨indices, _, yields⟩ := yields.bind
    obtain ⟨_, _, yields⟩ := yields.bind
    obtain ⟨_, _, yields⟩ := yields.bind
    rw [yields.pure]
    cases indices with
    | nil => simpa using some_there
    | cons i rest => exact List.cons_ne_nil i rest

theorem beginPass_local (a : Address) (data function : Value) (batch : Option Value) (s : Store) :
    Local fun k => Move.go <$> beginPass a data function batch s k := by
  simp only [beginPass_eq, map_bind, apply_ite (Functor.map Move.go), map_pure]
  refine .lift fun size => ?_
  by_cases empty : ((data.items?.getD []).length == 0) = true
  · simp only [if_pos empty]
    exact .go (fun _ => rfl) rfl
  · simp only [if_neg empty]
    refine .bind_yields (selectPass_silent _ _ _ _) fun pass yields => ?_
    refine nextVisit_local (selectPass_remaining (fun none => empty ?_) yields) s
    rw [none]
    rfl

theorem enter_local (cx : Context) (function : Value) (args : List Value) (a : Address) (s : Store) :
    Local fun k => Move.go <$> enter cx function args a s k := by
  cases function with
  | memo table name => exact callMemo_local table args a s
  | function name =>
    unfold enter
    dsimp only
    cases cx.program.find? name with
    | none => exact .throw _
    | some d =>
      simp only [apply_ite (Functor.map Move.go)]
      exact .ite (.throw _) (.go (fun _ => rfl) rfl)
  | _ => exact .throw _

theorem advanceComp_local (cx : Context) (c : Comp) (vars : Vars) (a : Address) (s : Store) :
    Local (advanceComp cx c vars a s) := by
  have goes (next : Rest → Control) (below : ∀ k, next k = (next .halt).onto k)
      (unclaimed : (next .halt).unclaimed = true) : Local fun k => pure (.go (next k)) :=
    .go below unclaimed
  have rests (step : Rest → Step Rest Dist Float) (below : ∀ k, step k = (step .halt).onto k)
      (unclaimed : (step .halt).unclaimed = true) : Local fun k => pure (.rest (step k)) :=
    .of_pure (fun k => congrArg Move.rest (below k)) unclaimed
  cases c with
  | ret e => exact .lift fun _ => goes _ (fun _ => rfl) rfl
  | bind name first rest => exact goes _ (fun _ => rfl) rfl
  | sequence steps =>
    match steps with
    | [] => exact goes _ (fun _ => rfl) rfl
    | [_] => exact goes _ (fun _ => rfl) rfl
    | _ :: _ :: _ => exact goes _ (fun _ => rfl) rfl
  | choose test yes no => exact .lift fun _ => goes _ (fun _ => rfl) rfl
  | sample t d =>
    exact .lift fun _ => .lift fun _ => .bind current_silent fun _ => rests _ (fun _ => rfl) rfl
  | factor t e =>
    exact .lift fun _ => .lift fun _ => .bind current_silent fun _ => .lift fun _ =>
      rests _ (fun _ => rfl) rfl
  | observe t d e =>
    exact .lift fun _ => .lift fun _ => .lift fun _ => .bind current_silent fun _ => .lift fun _ =>
      rests _ (fun _ => rfl) rfl
  | set key e => exact .lift fun _ => .lift fun _ => .lift fun _ => goes _ (fun _ => rfl) rfl
  | call t f args => exact .lift fun _ => .lift fun _ => .lift fun _ => goes _ (fun _ => rfl) rfl
  | apply t f args => exact .lift fun _ => .lift fun _ => .lift fun _ => goes _ (fun _ => rfl) rfl
  | bounce c => exact goes _ (fun _ => rfl) rfl
  | relative t =>
    exact .lift fun _ => .bind (relative_silent _) fun _ => goes _ (fun _ => rfl) rfl
  | map t data f batch =>
    refine .lift fun _ => .lift fun _ => .lift fun _ => .lift fun _ => ?_
    simpa only [map_eq_pure_bind] using beginPass_local _ _ _ _ s
  | cache t f bound =>
    exact .lift fun _ => .lift fun _ => .lift fun _ => .bind (newMemo_silent _ _) fun _ =>
      goes _ (fun _ => rfl) rfl
  | param t start mean sd seed =>
    exact .lift fun _ => .lift fun _ => .lift fun _ => .lift fun _ => .lift fun _ => .lift fun _ =>
      .lift fun _ => .lift fun _ => .bind (param_silent _ _ _ _ _) fun _ => goes _ (fun _ => rfl) rfl
  | tensor form t e => exact .lift fun _ => .lift fun _ => .lift fun _ => goes _ (fun _ => rfl) rfl
  | infer t f method options =>
    refine .lift fun _ => .lift fun _ => .lift fun _ => .bind ?_ fun options => .lift fun _ => ?_
    · exact .mapM (fun _ => (Silent.lift _).bind fun _ => .pure _) _
    · exact .bind (prepare_silent _ _ _ _ _ _) fun i => .of_pure (fun _ => rfl) rfl
  | emit e => exact .lift fun _ => .bind (emit_silent _) fun _ => goes _ (fun _ => rfl) rfl
  | raise message => exact .throw _
  | stop e => exact .lift fun _ => rests _ (fun _ => rfl) rfl
  | unknown _ => exact .throw _

variable {cx : Context} {c : Control}

/-- A move that completes no pass looks only at the latest thing that remains of the run. -/
theorem advance_local (cx : Context) (unclaimed : c.unclaimed = true) (running : c.delivered? = none)
    (untold : c.told = []) :
    ∃ (x : Rest → Run Move) (k : Rest), Local x ∧ k.unclaimed = true ∧
      ∀ base, advance cx (c.onto base) = x (k.onto base) := by
  cases c with
  | eval c vars a s k => exact ⟨_, k, advanceComp_local cx c vars a s, unclaimed, fun _ => rfl⟩
  | call f args a s k =>
    refine ⟨_, k, enter_local cx f args a s, unclaimed, fun base => ?_⟩
    exact (map_eq_pure_bind _ _).symm
  | give k s v =>
    cases k with
    | halt => cases running
    | deliver => cases unclaimed
    | entry f a => cases unclaimed
    | bind name body vars a k =>
      exact ⟨_, k, .go (fun _ => rfl) rfl, unclaimed, fun _ => rfl⟩
    | sequence steps vars a k =>
      exact ⟨_, k, .go (fun _ => rfl) rfl, unclaimed, fun _ => rfl⟩
    | replace observed k =>
      exact ⟨fun k => pure (.go (.give k s observed)), k, .go (fun _ => rfl) rfl, unclaimed,
        fun _ => rfl⟩
    | remember table key k =>
      exact ⟨fun k => remember table key v >>= fun _ => pure (.go (.give k s v)), k,
        .bind (remember_silent table key v) fun _ => .go (fun _ => rfl) rfl, unclaimed, fun _ => rfl⟩
    | visit pass k =>
      obtain ⟨data, function, a, relative, remaining, results⟩ := pass
      cases remaining with
      | nil => cases untold
      | cons i remaining =>
        let next : Pass := ⟨data, function, a, relative, i :: remaining, v :: results⟩
        have remains : next.remaining ≠ [] := List.cons_ne_nil i remaining
        refine ⟨_, k, nextVisit_local remains s, unclaimed, fun base => ?_⟩
        exact (map_eq_pure_bind _ _).symm

theorem advance_silent (untold : c.told = []) : Silent (advance cx c) := by
  cases c with
  | eval c vars a s k => exact (advanceComp_local cx c vars a s).silent k
  | call f args a s k =>
    rw [show advance cx (.call f args a s k) = Move.go <$> enter cx f args a s k from
      (map_eq_pure_bind _ _).symm]
    exact (enter_local cx f args a s).silent k
  | give k s v =>
    cases k with
    | remember table key k => exact (remember_silent table key v).bind fun _ => .pure _
    | visit pass k =>
      obtain ⟨data, function, a, relative, remaining, results⟩ := pass
      cases remaining with
      | nil => cases untold
      | cons i remaining =>
        let next : Pass := ⟨data, function, a, relative, i :: remaining, v :: results⟩
        have remains : next.remaining ≠ [] := List.cons_ne_nil i remaining
        rw [show advance cx (.give (.visit ⟨data, function, a, relative, i :: remaining, results⟩ k) s v)
          = Move.go <$> nextVisit next s k from (map_eq_pure_bind _ _).symm]
        exact (nextVisit_local remains s).silent k
    | _ => exact .pure _

/-- The only moves that tell a strategy that a pass is complete are those with its last result. -/
theorem told_eq_nil_or (c : Control) :
    c.told = [] ∨ ∃ data function a relative results k s v,
      c = .give (.visit ⟨data, function, a, relative, [], results⟩ k) s v := by
  unfold Control.told
  split
  · exact .inr ⟨_, _, _, _, _, _, _, _, rfl⟩
  · exact .inl rfl

/-- A strategy that keeps a record is told of exactly the passes that moves complete. -/
theorem advance_tells {w : World} (recording : w.recording = true) :
    (ended (advance cx c w)).completed = c.told ++ w.completed := by
  obtain untold | ⟨data, function, a, relative, results, k, s, v, rfl⟩ := told_eq_nil_or c
  · rw [untold]
    exact advance_silent untold w
  · obtain ⟨strategies, _⟩ := w
    match strategies, recording with
    | ⟨_, _, _, some _⟩ :: _, _ => rfl

/-- A computation that has not delivered moves above any rest as it moves on its own. -/
theorem advance_onto (unclaimed : c.unclaimed = true) (running : c.delivered? = none)
    (base : Rest) : advance cx (c.onto base) = Move.onto base <$> advance cx c := by
  obtain untold | ⟨data, function, a, relative, results, k, s, v, rfl⟩ := told_eq_nil_or c
  · obtain ⟨x, k, does, _, moves⟩ := advance_local cx unclaimed running untold
    have alone := moves .halt
    rw [Control.onto_halt, Rest.onto_halt] at alone
    rw [moves, does.onto, alone]
  · rfl

theorem advance_unclaimed (unclaimed : c.unclaimed = true) (running : c.delivered? = none)
    {m : Move} (yields : Yields (advance cx c) m) : m.unclaimed = true := by
  obtain untold | ⟨data, function, a, relative, results, k, s, v, rfl⟩ := told_eq_nil_or c
  · obtain ⟨x, k, does, held, moves⟩ := advance_local cx unclaimed running untold
    have alone := moves .halt
    rw [Control.onto_halt, Rest.onto_halt] at alone
    rw [alone] at yields
    exact does.unclaimed held yields
  · obtain ⟨next, first, yields⟩ := yields.bind
    rw [yields.pure]
    obtain ⟨_, _, first⟩ := first.bind
    rw [first.pure]
    exact unclaimed

end Machine

end ProbCore
