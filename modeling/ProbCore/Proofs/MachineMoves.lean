import ProbCore.Program.Session
import ProbCore.Proofs.Mirroring

/-! What a move of the machine does to the strategies in charge. No move installs or removes a
strategy. Only a parameter that is drawn and an inference that is set up without a key take a key
from the strategy in charge; all other moves leave it what it has, up to the picks that a pass
over data uses up. Reports are never taken back. -/

namespace ProbCore

/-- The world with other strategies in charge and after other reports. -/
def World.amid (w : World) (strategies : List Active) (notices : List Notice) : World :=
  { w with strategies, notices }

/-- The strategies as they were, but for what `view` hides of the one in charge, and reports at
most added. -/
structure Spared (view : Active → Active) (w w' : World) : Prop where
  strategies : w'.strategies.modifyHead view = w.strategies.modifyHead view
  notices : w.notices <:+ w'.notices

namespace Active

def withoutPicks (a : Active) : Active := { a with picks := none }

def withoutKey (a : Active) : Active := { a with key := none, picks := none }

end Active

namespace Spared

variable {view : Active → Active} {w w' w'' : World}

theorem refl (w : World) : Spared view w w := ⟨rfl, List.suffix_rfl⟩

theorem trans (first : Spared view w w') (second : Spared view w' w'') : Spared view w w'' :=
  ⟨second.strategies.trans first.strategies, first.notices.trans second.notices⟩

end Spared

namespace Run

variable {α β γ : Type} {view : Active → Active}

def Spares (view : Active → Active) (x : Run α) : Prop := ∀ w, Spared view w (ended (x w))

namespace Spares

variable {x : Run α}

theorem pure (a : α) : Spares view (pure a : Run α) := fun w => .refl w

theorem throw (e : Failure) : Spares view (throw e : Run α) := fun w => .refl w

theorem bind {f : α → Run β} (first : Spares view x) (rest : ∀ a, Spares view (f a)) :
    Spares view (x >>= f) := by
  intro w
  have spared := first w
  cases began : x w with
  | ok a middle =>
    rw [began] at spared
    rw [bind_of_ok began]
    exact spared.trans (rest a middle)
  | error e middle =>
    rw [began] at spared
    rw [bind_of_error began]
    exact spared

theorem lift (r : Except Failure α) : Spares view (Run.lift r) := by
  cases r with
  | ok a => exact .pure a
  | error e => exact .throw e

theorem ite {c : Prop} [Decidable c] {y : Run α} (yes : Spares view x) (no : Spares view y) :
    Spares view (if c then x else y) := by
  split
  · exact yes
  · exact no

theorem get {f : World → Run α} (rest : ∀ w, Spares view (f w)) :
    Spares view (get >>= f) := fun w => rest w w

theorem modify {f : World → World} (strategies : ∀ w, (f w).strategies = w.strategies)
    (notices : ∀ w, (f w).notices = w.notices) : Spares view (modify f : Run Unit) := fun w =>
  ⟨congrArg (List.modifyHead view) (strategies w), notices w ▸ List.suffix_rfl⟩

theorem note (n : Notice) : Spares view (Run.note n) :=
  fun _ => ⟨rfl, List.suffix_cons _ _⟩

end Spares

/-- How a computation ends that has come to this result. -/
def outcome (r : Except Failure α) (w : World) : EStateM.Result Failure World α :=
  match r with
  | .ok a => .ok a w
  | .error e => .error e w

/-- A computation that neither asks nor changes which strategies are in charge, and does not ask
what was reported before, and reports no address. -/
def Aloof (x : Run α) : Prop :=
  ∀ w : World, ∃ (r : Except Failure α) (w' : World) (new : List Notice),
    (∀ n ∈ new, n.placeless = true) ∧ ∀ strategies notices,
      x (w.amid strategies notices) = outcome r (w'.amid strategies (new ++ notices))

namespace Aloof

variable {x : Run α}

theorem pure (a : α) : Aloof (pure a : Run α) := fun w =>
  ⟨.ok a, w, [], nofun, fun _ _ => rfl⟩

theorem throw (e : Failure) : Aloof (throw e : Run α) := fun w =>
  ⟨.error e, w, [], nofun, fun _ _ => rfl⟩

theorem lift (r : Except Failure α) : Aloof (Run.lift r) := by
  cases r with
  | ok a => exact .pure a
  | error e => exact .throw e

theorem note {n : Notice} (placeless : n.placeless = true) : Aloof (Run.note n) := fun w =>
  ⟨.ok (), w, [n], List.forall_mem_singleton.mpr placeless, fun _ _ => rfl⟩

theorem bind {f : α → Run β} (first : Aloof x) (rest : ∀ a, Aloof (f a)) : Aloof (x >>= f) := by
  intro w
  obtain ⟨r, middle, new, placeless, began⟩ := first w
  cases r with
  | error e =>
    refine ⟨.error e, middle, new, placeless, fun strategies notices => ?_⟩
    exact bind_of_error (began strategies notices)
  | ok a =>
    obtain ⟨r, w', newer, placeless', ends⟩ := rest a middle
    refine ⟨r, w', newer ++ new, List.forall_mem_append.mpr ⟨placeless', placeless⟩,
      fun strategies notices => ?_⟩
    rw [bind_of_ok (began strategies notices), List.append_assoc]
    exact ends strategies (new ++ notices)

theorem ite {c : Prop} [Decidable c] {y : Run α} (yes : Aloof x) (no : Aloof y) :
    Aloof (if c then x else y) := by
  split
  · exact yes
  · exact no

theorem get {f : World → Run α} (rest : ∀ w, Aloof (f w))
    (unseen : ∀ w strategies notices, f (w.amid strategies notices) = f w) :
    Aloof (get >>= f) := by
  intro w
  obtain ⟨r, w', new, placeless, ends⟩ := rest w w
  refine ⟨r, w', new, placeless, fun strategies notices => ?_⟩
  rw [← ends strategies notices, ← unseen w strategies notices]
  rfl

theorem modify {f : World → World}
    (unseen : ∀ w strategies notices,
      f (w.amid strategies notices) = (f w).amid strategies notices) :
    Aloof (modify f : Run Unit) :=
  fun w => ⟨.ok (), f w, [], nofun, fun strategies notices =>
    congrArg (EStateM.Result.ok ()) (unseen w strategies notices)⟩

theorem mapM {f : γ → Run α} (each : ∀ c, Aloof (f c)) (cs : List γ) : Aloof (cs.mapM f) := by
  induction cs with
  | nil =>
    rw [List.mapM_nil]
    exact .pure []
  | cons c cs ih =>
    rw [List.mapM_cons]
    exact (each c).bind fun a => ih.bind fun as => .pure (a :: as)

theorem forIn {f : γ → β → Run (ForInStep β)} (each : ∀ c b, Aloof (f c b)) (cs : List γ) (b : β) :
    Aloof (forIn cs b f) := by
  induction cs generalizing b with
  | nil =>
    rw [List.forIn_nil]
    exact .pure b
  | cons c cs ih =>
    rw [List.forIn_cons]
    refine (each c b).bind fun next => ?_
    cases next with
    | done b => exact .pure b
    | yield b => exact ih b

theorem spares (aloof : Aloof x) : Spares view x := by
  intro w
  obtain ⟨r, w', new, _, ends⟩ := aloof w
  have ended_eq : ended (x w) = w'.amid w.strategies (new ++ w.notices) := by
    rw [show x w = _ from ends w.strategies w.notices]
    cases r <;> rfl
  rw [ended_eq]
  exact ⟨rfl, List.suffix_append _ _⟩

end Aloof

theorem installed_eq (a : Active) (x : Run α) :
    installed a x = bracket (fun w => { w with strategies := a :: w.strategies })
      (fun _ w => { w with strategies := w.strategies.tail }) x := by
  funext w
  unfold installed bracket
  cases x { w with strategies := a :: w.strategies } <;> rfl

theorem unlessDegenerate_eq (x : Run α) : Host.unlessDegenerate x = caught x := by
  funext w
  change tryDegenerate x w = caught x w
  unfold tryDegenerate caught
  cases x w with
  | ok a w' => rfl
  | error e w' => cases e <;> rfl

theorem lift_bind (r : Except Failure α) (f : α → Except Failure β) :
    Run.lift (r >>= f) = Run.lift r >>= fun a => Run.lift (f a) := by
  cases r <;> rfl

theorem lift_leaves {r : Except Failure α} {a : α} {w w' : World}
    (returned : Run.lift r w = .ok a w') : w' = w := by
  cases r <;> cases returned
  rfl

theorem lift_mapM (f : γ → Except Failure α) (cs : List γ) :
    Run.lift (cs.mapM f) = cs.mapM fun c => Run.lift (f c) := by
  induction cs with
  | nil => rfl
  | cons c cs ih =>
    rw [List.mapM_cons, List.mapM_cons, lift_bind, ← ih]
    simp only [lift_bind]
    rfl

theorem current_spares : Spares view current := by
  refine .get fun w => ?_
  split
  · exact .pure _
  · exact .throw _

theorem relative_spares (a : Address) : Spares view (relative a) := by
  refine .get fun w => ?_
  split
  · exact .pure _
  · exact .pure _

theorem updateCurrent_spares {f : Active → Active} (hidden : ∀ a, view (f a) = view a) :
    Spares view (updateCurrent f) := by
  intro w
  obtain ⟨strategies, _⟩ := w
  cases strategies with
  | nil => exact .refl _
  | cons a rest => exact ⟨congrArg (· :: rest) (hidden a), List.suffix_rfl⟩

theorem fetch_spares (previous : Option (List Int)) (size : Nat) (batch : Value) (a : Address) :
    Spares Active.withoutPicks (fetch previous size batch a) := by
  refine current_spares.bind fun active => ?_
  split
  · exact .pure _
  · refine Spares.bind (.modify ?_ ?_) fun _ => ?_
    · exact fun _ => rfl
    · exact fun _ => rfl
    · split
      · exact .pure _
      · refine Spares.bind (updateCurrent_spares ?_) fun _ => .pure _
        exact fun _ => rfl

theorem finishPass_spares (a : Address) : Spares view (finishPass a) := by
  intro w
  obtain ⟨strategies, _⟩ := w
  cases strategies with
  | nil => exact .refl _
  | cons active rest =>
    obtain ⟨_, _, _, picks⟩ := active
    cases picks with
    | none => exact .refl _
    | some picks => exact ⟨rfl, List.suffix_rfl⟩

theorem emit_aloof (v : Value) : Aloof (emit v) := by
  refine .modify fun w strategies notices => ?_
  dsimp only [World.amid]
  split <;> rfl

end Run

namespace Machine

open Run

variable {view : Active → Active}

theorem memoAt_aloof (table : Nat) : Aloof (memoAt table) := by
  refine .get (fun w => ?_) fun _ _ _ => rfl
  split
  · exact .pure _
  · exact .throw _

theorem setMemo_aloof (table : Nat) (m : Memo) : Aloof (setMemo table m) :=
  .modify fun _ _ _ => rfl

/-- Adds an empty table. -/
def addMemo (function : Value) (bound : Option Int) : Run Value := do
  let w ← get
  set { w with memos := w.memos.push ⟨function, .empty bound, false⟩ }
  return .memo w.memos.size (newMemo.nameOf function)

/-- A table is refused, or it is added with room for an entry. -/
theorem newMemo_cases (function bound : Value) :
    (∃ e, newMemo function bound = throw e) ∨
      ∃ n, (∀ m, n = some m → 1 ≤ m) ∧ newMemo function bound = addMemo function n := by
  unfold newMemo
  cases function.isCallable with
  | false => exact .inl ⟨_, rfl⟩
  | true =>
    rw [if_neg (by decide)]
    split
    · exact .inr ⟨none, nofun, rfl⟩
    · split
      · exact .inl ⟨_, rfl⟩
      next n _ =>
        dsimp only
        by_cases below : n < 1
        · rw [if_pos below]
          exact .inl ⟨_, rfl⟩
        · rw [if_neg below]
          exact .inr ⟨some n, fun m same => by cases same; omega, rfl⟩

theorem newMemo_aloof (function bound : Value) : Aloof (newMemo function bound) := by
  obtain ⟨e, refused⟩ | ⟨n, _, added⟩ := newMemo_cases function bound
  · rw [refused]
    exact .throw e
  · rw [added]
    exact fun w => ⟨.ok (.memo w.memos.size (newMemo.nameOf function)),
      { w with memos := w.memos.push ⟨function, .empty n, false⟩ }, [], nofun, fun _ _ => rfl⟩

theorem callMemo_spares (table : Nat) (args : List Value) (a : Address) (s : Store) (k : Rest) :
    Spares view (callMemo table args a s k) := by
  refine (Spares.lift _).bind fun key => (memoAt_aloof table).spares.bind fun m => .ite ?_ (.pure _)
  exact (Spares.lift _).bind fun _ => (setMemo_aloof table _).spares.bind fun _ => .pure _

/-- Reports that the key is known, and a value that differs from the one there. -/
def compareKnown (m : Memo) (key : String) (value : Value) : Run Unit := do
  if m.cache.contains key then
    note (.alreadyKnown key)
    let old ← Run.lift (Data.serialize (← Run.lift (m.cache.peek key)))
    let new ← Run.lift (Data.serialize value)
    if old != new then note (.diverged key old new)

/-- Gives other entries to a table, and reports it once if it has grown. -/
def settle (table : Nat) (m : Memo) (cache : Cache Value) : Run Unit := do
  if cache.bound.isNone && !m.announced && (← get).sizeNotice ≤ cache.size then
    setMemo table { m with cache, announced := true }
    note (.grown (newMemo.nameOf m.function) cache.size)
  else setMemo table { m with cache }

/-- Writes a value into a table. -/
def fill (table : Nat) (m : Memo) (key : String) (value : Value) : Run Unit := do
  let (cache, dropped) ← Run.lift (m.cache.put key value)
  if let some dropped := dropped then note (.evicted dropped)
  settle table m cache

/-- A value is compared before it is written. -/
theorem remember_eq_bind (table : Nat) (key : String) (value : Value) :
    remember table key value =
      memoAt table >>= fun m => compareKnown m key value >>= fun _ => fill table m key value := by
  unfold remember compareKnown
  refine congrArg (memoAt table >>= ·) (funext fun m => ?_)
  cases m.cache.contains key with
  | false => rfl
  | true =>
    simp only [if_true, bind_assoc]
    refine congrArg (note _ >>= ·) (funext fun _ => congrArg (Run.lift _ >>= ·) (funext fun _ => ?_))
    refine congrArg (Run.lift _ >>= ·) (funext fun old => congrArg (Run.lift _ >>= ·) (funext fun new => ?_))
    cases old != new <;> rfl

theorem compareKnown_aloof (m : Memo) (key : String) (value : Value) : Aloof (compareKnown m key value) :=
  .ite (.bind (.note rfl) fun _ => (Aloof.lift _).bind fun _ => (Aloof.lift _).bind fun _ =>
    (Aloof.lift _).bind fun _ => .ite (.note rfl) (.pure _)) (.pure _)

theorem settle_aloof (table : Nat) (m : Memo) (cache : Cache Value) : Aloof (settle table m cache) :=
  .get (fun _ => .ite ((setMemo_aloof table _).bind fun _ => .note rfl) (setMemo_aloof table _)) fun _ _ _ => rfl

theorem remember_aloof (table : Nat) (key : String) (value : Value) :
    Aloof (remember table key value) := by
  rw [remember_eq_bind]
  refine (memoAt_aloof table).bind fun m => (compareKnown_aloof m key value).bind fun _ => (Aloof.lift _).bind ?_
  rintro ⟨cache, _ | dropped⟩
  · exact settle_aloof table m cache
  · exact Aloof.bind (.note rfl) fun _ => settle_aloof table m cache

theorem checkIndices_aloof (given : Value) (size : Nat) : Aloof (checkIndices given size) := by
  unfold checkIndices
  dsimp only
  split
  · exact .throw _
  · refine (Aloof.mapM (fun x => ?_) _).bind fun indices => ?_
    · split
      · exact .pure _
      · exact .throw _
      · exact .throw _
    · exact (Aloof.forIn (fun n _ => .ite ((Aloof.throw _).bind fun _ => .pure _) (.pure _)) _ _).bind
        fun _ => .pure _

theorem nextVisit_spares (pass : Pass) (s : Store) (k : Rest) :
    Spares view (nextVisit pass s k) := by
  unfold nextVisit
  split
  · exact (finishPass_spares _).bind fun _ => .pure _
  · split
    · exact .throw _
    · exact .pure _

theorem beginPass_spares (a : Address) (data function : Value) (batch : Option Value) (s : Store)
    (k : Rest) : Spares Active.withoutPicks (beginPass a data function batch s k) := by
  unfold beginPass
  extract_lets items n goes check
  have visits : ∀ batch, Spares Active.withoutPicks (goes batch) := by
    intro batch
    refine .ite (.pure _) (current_spares.bind fun _ => (relative_spares a).bind fun rel => ?_)
    extract_lets select
    have selects : ∀ r, Spares Active.withoutPicks (select r) := by
      refine fun _ => .get fun w => (fetch_spares _ _ _ _).bind fun given =>
        (checkIndices_aloof given n).spares.bind fun indices => ?_
      refine Spares.bind (.modify ?_ ?_) fun _ => (Spares.note _).bind fun _ => nextVisit_spares _ _ _
      · exact fun _ => rfl
      · exact fun _ => rfl
    exact .ite ((Spares.throw _).bind selects) (selects ())
  have checks : ∀ r, Spares Active.withoutPicks (check r) := by
    intro _
    dsimp only [check]
    split
    · exact visits none
    · exact visits none
    · split
      · exact (Spares.throw _).bind visits
      · exact .ite (visits _) ((Spares.throw _).bind visits)
  exact .ite ((Spares.throw _).bind checks) (checks ())

theorem enter_spares (cx : Context) (function : Value) (args : List Value) (a : Address) (s : Store)
    (k : Rest) : Spares view (enter cx function args a s k) := by
  unfold enter
  split
  · exact callMemo_spares _ _ _ _ _
  · split
    · exact .throw _
    · exact .ite (.throw _) (.pure _)
  · exact .throw _

/-- A move that is no inference and spares the strategies. -/
structure Quiet (x : Run Move) : Prop where
  spares : Spares Active.withoutPicks x
  inner (i : Inference) (s : Store) (k : Rest) : ¬ Yields x (.infer i s k)

namespace Quiet

variable {α : Type}

theorem bind {x : Run α} {f : α → Run Move} (first : Spares Active.withoutPicks x)
    (rest : ∀ a, Quiet (f a)) : Quiet (x >>= f) where
  spares := first.bind fun a => (rest a).spares
  inner i s k yields := by
    obtain ⟨a, _, yields⟩ := yields.bind
    exact (rest a).inner i s k yields

theorem lift {r : Except Failure α} {f : α → Run Move} (rest : ∀ a, Quiet (f a)) :
    Quiet (Run.lift r >>= f) := .bind (.lift r) rest

theorem go (next : Control) : Quiet (pure (.go next)) where
  spares := .pure _
  inner _ _ _ yields := nomatch yields.pure

theorem rest (step : Step Rest Dist Float) : Quiet (pure (.rest step)) where
  spares := .pure _
  inner _ _ _ yields := nomatch yields.pure

theorem throw (e : Failure) : Quiet (throw e) where
  spares := .throw e
  inner := by
    rintro i s k ⟨w, w', returned⟩
    cases returned

end Quiet

end Machine

/-- The moves that may take a key from the strategy in charge. -/
def Control.takesKey : Control → Bool
  | eval (.param ..) .. | eval (.infer ..) .. => true
  | _ => false

namespace Machine

open Run

theorem advanceComp_quiet {cx : Context} {c : Comp} {vars : Vars} {a : Address} {s : Store}
    {k : Rest} (quiet : (Control.eval c vars a s k).takesKey = false) :
    Quiet (advanceComp cx c vars a s k) := by
  cases c with
  | ret e => exact .lift fun _ => .go _
  | bind name first rest => exact .go _
  | sequence steps =>
    match steps with
    | [] => exact .go _
    | [_] => exact .go _
    | _ :: _ :: _ => exact .go _
  | choose test yes no => exact .lift fun _ => .go _
  | sample t d => exact .lift fun _ => .lift fun _ => .bind current_spares fun _ => .rest _
  | factor t e =>
    exact .lift fun _ => .lift fun _ => .bind current_spares fun _ => .lift fun _ => .rest _
  | observe t d e =>
    exact .lift fun _ => .lift fun _ => .lift fun _ => .bind current_spares fun _ =>
      .lift fun _ => .rest _
  | set key e => exact .lift fun _ => .lift fun _ => .lift fun _ => .go _
  | call t f args => exact .lift fun _ => .lift fun _ => .lift fun _ => .go _
  | apply t f args => exact .lift fun _ => .lift fun _ => .lift fun _ => .go _
  | bounce c => exact .go _
  | relative t => exact .lift fun _ => .bind (relative_spares _) fun _ => .go _
  | map t data f batch =>
    exact .lift fun _ => .lift fun _ => .lift fun _ => .lift fun _ =>
      .bind (beginPass_spares _ _ _ _ _ _) fun _ => .go _
  | cache t f bound =>
    exact .lift fun _ => .lift fun _ => .lift fun _ => .bind (newMemo_aloof _ _).spares fun _ => .go _
  | param t start mean sd seed => cases quiet
  | tensor form t e => exact .lift fun _ => .lift fun _ => .lift fun _ => .go _
  | infer t f method options => cases quiet
  | emit e => exact .lift fun _ => .bind (emit_aloof _).spares fun _ => .go _
  | raise message => exact .throw _
  | stop e => exact .lift fun _ => .rest _
  | unknown _ => exact .throw _

theorem advance_quiet {cx : Context} {control : Control} (quiet : control.takesKey = false) :
    Quiet (advance cx control) := by
  cases control with
  | eval c vars a s k => exact advanceComp_quiet quiet
  | call f args a s k => exact .bind (enter_spares cx f args a s k) fun _ => .go _
  | give k s v =>
    cases k with
    | halt => exact .rest _
    | deliver => exact .rest _
    | entry f a => exact .go _
    | bind name body vars a k => exact .go _
    | sequence steps vars a k => exact .go _
    | replace observed k => exact .go _
    | remember table key k => exact .bind (remember_aloof table key v).spares fun _ => .go _
    | visit pass k => exact .bind (nextVisit_spares _ _ _) fun _ => .go _

/-- What a parameter is asked for with. -/
structure ParamCall where
  place : Address
  start : Value
  mean : Float
  sd : Float
  key : Option Random.Key

def ParamCall.read (sc : Scope) (t : Option Expr) (start : Expr) (mean sd seed : Option Expr) :
    Except Failure ParamCall := do
  let place ← sc.site t
  let start ← start.eval sc
  let mean ← sc.optional mean
  let sd ← sc.optional sd
  let seed ← sc.optional seed
  let key ← seedKey seed
  let mean ← numberOr 0 mean
  let sd ← numberOr 0 sd
  return ⟨place, start, mean, sd, key⟩

/-- What an inference is asked for with. -/
structure InferCall where
  place : Address
  function : Value
  method : Value
  key : Option Random.Key
  options : Options

def InferCall.read (sc : Scope) (t : Option Expr) (f method : Expr)
    (options : List (String × Expr)) : Except Failure InferCall := do
  let place ← sc.site t
  let f ← f.eval sc
  let method ← method.eval sc
  let options ← options.mapM fun (name, e) => do return (name, ← e.eval sc)
  let key ← seedKey (options.lookup "key")
  return ⟨place, f, method, key, options.filter (·.1 != "key")⟩

/-- The method that an inference is asked for by name. -/
def selected (function method : Value) (options : Options) : Except Failure Method :=
  match method with
  | .text word =>
    if !function.isCallable || options.any fun (name, _) => reserved.contains name then
      .error .illTyped
    else
      match Method.ofWord? word with
      | some method => .ok method
      | none => .error (.configuration (.unknownMethod word (Method.words.map (·.1))))
  | _ => .error .illTyped

/-- The key of an inference: its own, or one taken from the strategy in charge if that one has
any. -/
def keyFor (key : Option Random.Key) : Run (Option Random.Key) := do
  match key, (← get).strategies with
  | some key, _ => pure (some key)
  | none, { key := some _, .. } :: _ => some <$> Run.splitKey
  | none, _ => pure none

/-- The strategies after the one in charge was asked for a key, if no key was given. -/
def parted (key : Option Random.Key) : List Active → List Active
  | a :: rest =>
    match key, a.key with
    | none, some held => { a with key := some held.split.1 } :: rest
    | _, _ => a :: rest
  | [] => []

/-- The key of an inference among these strategies. -/
def keyAmong (key : Option Random.Key) (strategies : List Active) : Option Random.Key :=
  key <|> (strategies.head?.bind (·.key)).map (·.split.2)

theorem keyFor_eq (key : Option Random.Key) (w : World) :
    keyFor key w =
      .ok (keyAmong key w.strategies) { w with strategies := parted key w.strategies } := by
  obtain ⟨strategies, _⟩ := w
  cases key with
  | some key => cases strategies <;> rfl
  | none =>
    match strategies with
    | [] => rfl
    | ⟨_, none, _, _⟩ :: _ => rfl
    | ⟨_, some _, _, _⟩ :: _ => rfl

section

variable {w : World} {head : Active} {rest : List Active} (charged : w.strategies = head :: rest)
include charged

theorem keyFor_keyless (keyless : head.key = none) : keyFor none w = .ok none w := by
  obtain ⟨_, _⟩ := w
  subst charged
  obtain ⟨_, _, _, _⟩ := head
  subst keyless
  rfl

theorem keyFor_keyed {key : Random.Key} (keyed : head.key = some key) :
    keyFor none w = (some <$> Run.splitKey) w := by
  obtain ⟨_, _⟩ := w
  subst charged
  obtain ⟨_, _, _, _⟩ := head
  subst keyed
  rfl

end

/-- An inference whose method and key are settled. -/
def ready (a : Address) (function : Value) (method : Method) (options : Options)
    (picks : Option (List Value)) (key : Option Random.Key) : Run Inference := do
  let strategy ← Run.lift (options.configure method)
  Run.note (.running method.title a)
  return ⟨⟨method.title, key, a, picks⟩, strategy, .entry function a⟩

theorem prepare_eq (a : Address) (function method : Value) (key : Option Random.Key)
    (options : Options) (picks : Option (List Value)) :
    prepare a function method key options picks = (do
      let method ← Run.lift (selected function method options)
      ready a function method options picks (← keyFor key)) := by
  cases method with
  | text word =>
    unfold prepare selected
    by_cases refused : (!function.isCallable || options.any fun (name, _) =>
        reserved.contains name) = true
    · simp only [if_pos refused]
      rfl
    · simp only [if_neg refused]
      cases Method.ofWord? word with
      | none => rfl
      | some method =>
        funext w
        obtain ⟨strategies, _⟩ := w
        cases key with
        | some key => rfl
        | none =>
          match strategies with
          | [] => rfl
          | ⟨_, none, _, _⟩ :: _ => rfl
          | ⟨_, some _, _, _⟩ :: _ => rfl
  | _ => rfl

theorem ready_spares (a : Address) (function : Value) (method : Method) (options : Options)
    (picks : Option (List Value)) (key : Option Random.Key) :
    Spares view (ready a function method options picks key) :=
  (Spares.lift _).bind fun _ => (Spares.note _).bind fun _ => .pure _

theorem ready_eq_ok {a : Address} {function : Value} {method : Method} {options : Options}
    {picks : Option (List Value)} {key : Option Random.Key} {i : Inference} {w w' : World}
    (returned : ready a function method options picks key w = .ok i w') :
    i.active = ⟨method.title, key, a, picks⟩ ∧ i.entry = .entry function a ∧
      w' = { w with notices := .running method.title a :: w.notices } := by
  unfold ready at returned
  cases configured : options.configure method with
  | error e =>
    rw [configured] at returned
    cases returned
  | ok strategy =>
    rw [configured] at returned
    cases returned
    exact ⟨rfl, rfl, rfl⟩

/-- Whether the first value of a parameter is drawn at random. -/
def drawsStart (start : Value) (sd : Float) : Bool :=
  match start with
  | .list _ | .tuple _ => !(sd == 0)
  | _ => false

theorem makeParam_eq {start : Value} {sd : Float} {key : Option Random.Key}
    (draws : (drawsStart start sd && key.isNone) = true) (mean : Float) :
    makeParam start mean sd key = Run.splitKey >>= fun key => makeParam start mean sd (some key) := by
  obtain ⟨drawn, keyless⟩ := (Bool.and_eq_true _ _).mp draws
  obtain rfl := Option.isNone_iff_eq_none.mp keyless
  have nonzero {dims : List Value} (drawn : (!(sd == 0)) = true) :
      makeParam (.list dims) mean sd none =
        Run.splitKey >>= fun key => makeParam (.list dims) mean sd (some key) := by
    have fixed : ¬ (sd == 0) = true := by simpa using drawn
    simp only [makeParam, if_neg fixed, pure_bind]
  cases start with
  | list dims => exact nonzero drawn
  | tuple dims => exact nonzero drawn
  | _ => cases drawn

theorem makeParam_aloof {start : Value} {sd : Float} {key : Option Random.Key}
    (settled : (drawsStart start sd && key.isNone) = false) (mean : Float) :
    Aloof (makeParam start mean sd key) := by
  have fills (dims : List Value) (settled : (!(sd == 0) && key.isNone) = false) :
      Aloof (makeParam (.list dims) mean sd key) := by
    by_cases fixed : (sd == 0) = true
    · simp only [makeParam, if_pos fixed]
      exact (Aloof.lift _).bind fun _ => .pure _
    · simp only [makeParam, if_neg fixed]
      cases key with
      | some key => exact (Aloof.lift _).bind fun _ => .pure _
      | none => simp [fixed] at settled
  cases start with
  | list dims => exact fills dims settled
  | tuple dims => exact fills dims settled
  | _ => exact .pure _

variable (cx : Context) (fuel : Nat)

/-- Sets up a strategy and runs it to its marginal. -/
def inferAt (c : InferCall) (s : Store) : Run (Marginal Value Float) := do
  let i ← prepare c.place c.function c.method c.key c.options none
  Run.installed i.active (i.strategy.estimate (resume cx fuel) fuel i.entry s)

theorem advance_param (t : Option Expr) (start : Expr) (mean sd seed : Option Expr) (vars : Vars)
    (a : Address) (s : Store) (k : Rest) :
    advance cx (.eval (.param t start mean sd seed) vars a s k) = (do
      let c ← Run.lift (ParamCall.read ⟨cx.program, cx.globals, vars, s, a⟩ t start mean sd seed)
      return .go (.give k s (← param c.place c.start c.mean c.sd c.key))) := by
  simp only [advance, advanceComp, ParamCall.read, Run.lift_bind, bind_assoc]
  rfl

theorem advance_infer (t : Option Expr) (f method : Expr) (options : List (String × Expr))
    (vars : Vars) (a : Address) (s : Store) (k : Rest) :
    advance cx (.eval (.infer t f method options) vars a s k) = (do
      let c ← Run.lift (InferCall.read ⟨cx.program, cx.globals, vars, s, a⟩ t f method options)
      return .infer (← prepare c.place c.function c.method c.key c.options none) s k) := by
  simp only [advance, advanceComp, InferCall.read, Run.lift_bind, Run.lift_mapM, bind_assoc]
  rfl

theorem run_param (t : Option Expr) (start : Expr) (mean sd seed : Option Expr) (vars : Vars)
    (a : Address) (s : Store) (k : Rest) :
    run cx (fuel + 1) (.eval (.param t start mean sd seed) vars a s k) = (do
      let c ← Run.lift (ParamCall.read ⟨cx.program, cx.globals, vars, s, a⟩ t start mean sd seed)
      let v ← param c.place c.start c.mean c.sd c.key
      run cx fuel (.give k s v)) := by
  rw [run, advance_param]
  simp only [bind_assoc, pure_bind]

/-- An inference inside a program hands its marginal to the rest of the program, with the store
that it was called with. -/
theorem run_infer (t : Option Expr) (f method : Expr) (options : List (String × Expr))
    (vars : Vars) (a : Address) (s : Store) (k : Rest) :
    run cx (fuel + 1) (.eval (.infer t f method options) vars a s k) = (do
      let c ← Run.lift (InferCall.read ⟨cx.program, cx.globals, vars, s, a⟩ t f method options)
      let m ← inferAt cx fuel c s
      run cx fuel (.give k s (.marginal m))) := by
  rw [run, advance_infer]
  simp only [inferAt, bind_assoc, pure_bind]
  rfl

/-- Until a strategy is needed or an inference has run, a run is its moves. -/
theorem run_quiet {control : Control} (quiet : control.takesKey = false) :
    run cx (fuel + 1) control = (do
      match ← advance cx control with
      | .go next => run cx fuel next
      | .rest step => return step
      | .infer .. => throw .outOfFuel) := by
  rw [run]
  refine bind_congr_yields fun move yields => ?_
  cases move with
  | go next => rfl
  | rest step => rfl
  | infer i s k => exact absurd yields ((advance_quiet quiet).inner i s k)

end Machine

/-- An inference from outside is one at the address that it is given. -/
theorem Session.infer_eq (cx : Machine.Context) (f method : Value) (key : Option Random.Key)
    (options : Options) (a : Address) (s : Store) :
    Session.infer cx f method key options a s = (do
      if options.any fun (name, _) => Session.settings.contains name then throw .illTyped
      Machine.inferAt cx Session.fuel ⟨a, f, method, key, options⟩ s) := rfl

end ProbCore
