import ProbCore.Program.Session

/-! Bounces that are handed back. The machine goes on with a bounce itself. It might as well hand each
one to whoever resumed the run, who goes on with it until a step comes back: a run comes to the same, and
so does every strategy, whose loops then see the bounces of its program and resume them. -/

namespace ProbCore.Machine

/-- What a run hands back: a bounce, which is the control to go on with and the fuel that is left for it,
or a step. -/
inductive Handout where
  | bounce (left : Nat) (thunk : Control)
  | step (step : Step Rest Dist Float)

/-- Runs the machine up to the next bounce or step. -/
def burst (cx : Context) : Nat → Control → Run Handout
  | 0, _ => throw .outOfFuel
  | fuel + 1, .eval (.bounce c) vars a s k => return .bounce fuel (.eval c vars a s k)
  | fuel + 1, control => do
    match ← advance cx control with
    | .go next => burst cx fuel next
    | .rest step => return .step step
    | .infer i s k => do
      let m ← Run.installed i.active (i.strategy.estimate (resume cx fuel) fuel i.entry s)
      burst cx fuel (.give k s (.marginal m))

/-- Goes on with bounces, of which there may be so many, until a step comes back. -/
def trampoline (cx : Context) : Nat → Handout → Run (Step Rest Dist Float)
  | _, .step step => return step
  | 0, .bounce .. => throw .outOfFuel
  | bounces + 1, .bounce left thunk => do trampoline cx bounces (← burst cx left thunk)

/-- A resumed run that hands back its bounces, and the loop that goes on with them. -/
def bouncedResume (cx : Context) (fuel : Nat) : Resume Run Rest Dist Float :=
  fun k s v => do trampoline cx fuel (← burst cx fuel (.give k s v))

variable {cx : Context} {fuel bounces : Nat}

theorem trampoline_step (step : Step Rest Dist Float) : trampoline cx bounces (.step step) = return step := by
  cases bounces <;> rfl

/-- Only a bounce is handed back before its move. -/
theorem burst_succ {control : Control} (other : ∀ c vars a s k, control ≠ .eval (.bounce c) vars a s k) :
    burst cx (fuel + 1) control = (do
      match ← advance cx control with
      | .go next => burst cx fuel next
      | .rest step => return .step step
      | .infer i s k => do
        let m ← Run.installed i.active (i.strategy.estimate (resume cx fuel) fuel i.entry s)
        burst cx fuel (.give k s (.marginal m))) := by
  cases control with
  | eval c vars a s k =>
    cases c with
    | bounce c => exact absurd rfl (other c vars a s k)
    | _ => rfl
  | _ => rfl

/-- A bounce takes fuel, so no run can have more of them than that. -/
theorem trampoline_burst (enough : fuel ≤ bounces) (control : Control) :
    (do trampoline cx bounces (← burst cx fuel control)) = run cx fuel control := by
  induction fuel generalizing bounces control with
  | zero => rfl
  | succ fuel ih =>
    have moves (other : ∀ c vars a s k, control ≠ .eval (.bounce c) vars a s k) :
        (do trampoline cx bounces (← burst cx (fuel + 1) control)) = run cx (fuel + 1) control := by
      have onward := fun control => ih (Nat.le_of_succ_le enough) control
      rw [burst_succ other, run, bind_assoc]
      refine congrArg _ (funext fun move => ?_)
      cases move with
      | go next => exact onward next
      | rest step => exact trampoline_step step
      | infer i s k =>
        rw [bind_assoc]
        exact congrArg _ (funext fun m => onward (.give k s (.marginal m)))
    cases control with
    | eval c vars a s k =>
      cases c with
      | bounce c =>
        obtain ⟨fewer, rfl⟩ : ∃ fewer, bounces = fewer + 1 := ⟨bounces - 1, by omega⟩
        exact ih (Nat.le_of_succ_le_succ enough) (.eval c vars a s k)
      | _ => exact moves nofun
    | _ => exact moves nofun

/-- A run resumed by whoever goes on with its bounces. -/
theorem bouncedResume_eq : bouncedResume cx fuel = resume cx fuel :=
  funext fun k => funext fun s => funext fun v => trampoline_burst (Nat.le_refl fuel) (.give k s v)

section

variable {σ ο : Type}

/-- Runs one execution under a handler, as `drive` does, in a loop that is handed bounces as well as
steps. The numbers bound its steps and the bounces before the next of them. -/
def driveHanded (cx : Context) (fuel : Nat) (h : Handler Run Rest Dist Float σ ο) :
    Nat → Nat → σ → Handout → Run ο
  | _, 0, _, .bounce .. => throw .outOfFuel
  | steps, bounces + 1, state, .bounce left thunk => do
    driveHanded cx fuel h steps bounces state (← burst cx left thunk)
  | 0, _, _, .step _ => throw .outOfFuel
  | steps + 1, _, state, .step (.sample s k a d) => do
    match ← h.sample state s k a d with
    | .deliver state value => do driveHanded cx fuel h steps fuel state (← burst cx fuel (.give k s value))
    | .finish outcome => return outcome
  | steps + 1, _, state, .step (.factor s k a score) => do
    match ← h.factor state s k a score with
    | .deliver state value => do driveHanded cx fuel h steps fuel state (← burst cx fuel (.give k s value))
    | .finish outcome => return outcome
  | _ + 1, _, state, .step (.exit s value) => h.exit state s value
  | _ + 1, _, _, .step (.stray value) => throw (.inference (.strayResult value))
termination_by steps bounces => (steps, bounces)

variable {h : Handler Run Rest Dist Float σ ο}

/-- Bounces only come before what the loop does with the next step. -/
theorem driveHanded_bounced {steps : Nat} {state : σ}
    (same : ∀ bounces step, driveHanded cx fuel h steps bounces state (.step step) =
      drive (resume cx fuel) h steps state step) (bounces : Nat) (handout : Handout) :
    driveHanded cx fuel h steps bounces state handout =
      (do drive (resume cx fuel) h steps state (← trampoline cx bounces handout)) := by
  induction bounces generalizing handout with
  | zero =>
    cases handout with
    | bounce left thunk =>
      rw [driveHanded]
      rfl
    | step step =>
      rw [same, trampoline_step, pure_bind]
  | succ bounces ih =>
    cases handout with
    | bounce left thunk =>
      rw [driveHanded, trampoline, bind_assoc]
      exact congrArg _ (funext ih)
    | step step =>
      rw [same, trampoline_step, pure_bind]

/-- A loop that is handed the bounces comes to what `drive` comes to, which sees only steps. -/
theorem driveHanded_eq (steps bounces : Nat) (state : σ) (handout : Handout) :
    driveHanded cx fuel h steps bounces state handout =
      (do drive (resume cx fuel) h steps state (← trampoline cx bounces handout)) := by
  induction steps generalizing bounces state handout with
  | zero =>
    refine driveHanded_bounced (fun bounces step => ?_) bounces handout
    rw [driveHanded]
    rfl
  | succ steps ih =>
    have resumed (state : σ) (k : Rest) (s : Store) (v : Value) :
        (do driveHanded cx fuel h steps fuel state (← burst cx fuel (.give k s v))) =
          (do drive (resume cx fuel) h steps state (← resume cx fuel k s v)) := by
      calc (do driveHanded cx fuel h steps fuel state (← burst cx fuel (.give k s v)))
        _ = (do trampoline cx fuel (← burst cx fuel (.give k s v))) >>= drive (resume cx fuel) h steps state := by
          rw [bind_assoc]
          exact congrArg _ (funext fun handout => ih fuel state handout)
        _ = (do drive (resume cx fuel) h steps state (← resume cx fuel k s v)) := by
          rw [trampoline_burst (Nat.le_refl fuel)]
          rfl
    refine driveHanded_bounced (fun bounces step => ?_) bounces handout
    cases step with
    | sample s k a d =>
      rw [driveHanded, drive]
      refine congrArg _ (funext fun reaction => ?_)
      cases reaction with
      | deliver state value => exact resumed state k s value
      | finish outcome => rfl
    | factor s k a score =>
      rw [driveHanded, drive]
      refine congrArg _ (funext fun reaction => ?_)
      cases reaction with
      | deliver state value => exact resumed state k s value
      | finish outcome => rfl
    | exit s value =>
      rw [driveHanded]
      rfl
    | stray value =>
      rw [driveHanded]
      rfl

end

/-- Strategies are the same whether the machine goes on with bounces or their loops do. -/
theorem estimate_bounced (strategy : Strategy Float) (entry : Rest) (s : Store) :
    strategy.estimate (bouncedResume cx fuel) fuel entry s = strategy.estimate (resume cx fuel) fuel entry s := by
  rw [bouncedResume_eq]

end ProbCore.Machine
