import ProbCore.Proofs.ExitDiscipline
import ProbCore.Proofs.Memoization
import ProbCore.Proofs.Telling

/-! An execution that skips its final continuation makes its strategy fail for good, so that more
fuel brings nothing else. Beside the machine runs a prompt one, whose executions fail by themselves
where they skip it, before their strategy can run out of fuel. The machine comes to the same as the
prompt one as long as no execution skipped it, and comes to the failures of the prompt one with more
fuel. -/

namespace ProbCore

open Machine

namespace Chronicled

/-- Hands a step over and fails at once if the execution skipped its final continuation. -/
def checking (depth : Nat) (act : Chronicled (Step Rest Dist Float)) :
    Chronicled (Step Rest Dist Float) := do
  match ← handing depth act with
  | .stray v => throw (.inference (.strayResult v))
  | step => return step

/-- Runs the machine with strategies that resume prompt runs. -/
def promptRun (cx : Context) : Nat → Nat → Control → Chronicled (Step Rest Dist Float)
  | _, 0, _ => throw .outOfFuel
  | depth, fuel + 1, control => do
    match ← moving cx control with
    | .go next => promptRun cx depth fuel next
    | .rest step => return step
    | .infer i s k => do
      let m ← installed i.active (i.strategy.estimate
        (fun k s v => checking (depth + 1) (promptRun cx (depth + 1) fuel (.give k s v))) fuel
        i.entry s)
      promptRun cx depth fuel (.give k s (.marginal m))

def promptResume (cx : Context) (depth fuel : Nat) : Resume Chronicled Rest Dist Float :=
  fun k s v => checking depth (promptRun cx depth fuel (.give k s v))

/-- The answer of a strategy that resumes prompt runs. -/
def promptAnswer (cx : Context) (depth fuel : Nat) (i : Inference) (s : Store) :
    Chronicled (Marginal Value Float) :=
  installed i.active (i.strategy.estimate (promptResume cx depth fuel) fuel i.entry s)

theorem promptRun_succ (cx : Context) (depth fuel : Nat) (control : Control) :
    promptRun cx depth (fuel + 1) control = (do
      match ← moving cx control with
      | .go next => promptRun cx depth fuel next
      | .rest step => return step
      | .infer i s k => do
        let m ← promptAnswer cx (depth + 1) fuel i s
        promptRun cx depth fuel (.give k s (.marginal m))) := rfl

end Chronicled

open Chronicled

variable {α β : Type} {φ : α → β} {fair : List Handed → Prop} {cx : Context} {depth fuel : Nat}

theorem moving_alike (control : Control) :
    Mirrors (tellingWhile fair id) id (moving cx control) (moving cx control) :=
  moved_telling (moving_telling (alone_mirrors _))

/-- A single allowance, with which only what skipped its final continuation gives up. -/
def Patience.prompt : Patience Unit := ⟨pure (), fun e => ∃ v, e = .inference (.strayResult v)⟩

section

variable {x y : Chronicled (Step Rest Dist Float)}

/-- Whether a computation comes to the same as a prompt one that does not fail, with all executions
complete. -/
def Promptly (x y : Chronicled α) : Prop :=
  Tracks .prompt (tellingWhile Clean id) id (fun _ => x) y

theorem handing_checked (prompt : Promptly x y) (depth : Nat) :
    Promptly (handing depth x) (checking depth y) := by
  simp only [handing, checking, bind_assoc]
  refine Tracks.bind prompt fun step => ?_
  have complete (none : ∀ v, step ≠ .stray v) :
      Promptly (do tell ⟨depth, step⟩; return step) (do tell ⟨depth, step⟩; return step) :=
    (tell_telling fun _ clean => clean.cons none).tracks.bind fun _ => .pure step
  cases step with
  | stray v => exact fun _ _ _ _ => .inl ⟨_, _, ⟨v, rfl⟩, rfl⟩
  | _ => exact complete nofun

theorem answer_promptly (runs : ∀ control, Promptly (run cx depth fuel control)
    (promptRun cx depth fuel control)) (i : Inference) (s : Store) :
    Promptly (answer cx depth fuel i s) (promptAnswer cx depth fuel i s) := by
  have along : Alongside .prompt (T := tellingWhile Clean id) .unmoved
      (fun _ => resume cx depth fuel) (promptResume cx depth fuel) (fun _ => fuel) fuel :=
    along_telling nofun (fun k s v => handing_checked (runs (.give k s v)) depth)
      (.of_forall fun _ => .inl rfl)
  exact answers_telling along i s

theorem run_promptly (cx : Context) (depth fuel : Nat) (control : Control) :
    Promptly (run cx depth fuel control) (promptRun cx depth fuel control) := by
  induction fuel generalizing depth control with
  | zero => exact (Mirrors.throw (.same _)).tracks
  | succ fuel ih =>
    rw [run_succ, promptRun_succ]
    refine Tracks.bind (moving_alike control).tracks fun move => ?_
    cases move with
    | go next => exact ih depth next
    | rest step => exact .pure step
    | infer i s k => exact (answer_promptly (ih (depth + 1)) i s).bind fun m => ih depth _

end

/-- Whether a computation comes, with enough fuel, to what a prompt one comes to. -/
def Finally (x : Nat → Chronicled α) (y : Chronicled α) : Prop :=
  Tracks .unending (telling id) id x y

section

variable {x : Nat → Chronicled (Step Rest Dist Float)} {y : Chronicled (Step Rest Dist Float)}

/-- What goes on with an execution may fail itself if that skipped its final continuation. -/
theorem Finally.checked (finally_ : Finally x y) (depth : Nat)
    {f : Nat → Step Rest Dist Float → Chronicled α} {g : Step Rest Dist Float → Chronicled β}
    (refuses : ∀ v, ∀ᶠ more in Filter.atTop,
      f more (.stray v) = throw (.inference (.strayResult v)))
    (rest : ∀ step, (∀ v, step ≠ .stray v) →
      Tracks .unending (telling id) φ (fun more => f more step) (g step)) :
    Tracks .unending (telling id) φ (fun more => handing depth (x more) >>= f more)
      (checking depth y >>= g) := by
  simp only [checking, bind_assoc]
  refine Tracks.bind (handing_telling depth finally_) fun step => ?_
  cases step with
  | stray v => exact (Mirrors.throw (.same _)).tracks.of_eventually (refuses v)
  | _ =>
    simp only [id, pure_bind]
    exact rest _ nofun

end

section

variable {x : Nat → Control → Chronicled (Step Rest Dist Float)} {more : Nat → Nat}
  (runs : ∀ control, Finally (fun j => x j control) (promptRun cx depth fuel control))
include runs

/-- Only the strategy spends fuel here, and one more than its prompt counterpart is enough to refuse
what that fails with. -/
theorem drive_promptly {S S' O O' : Type} {χ : S → S'} {ψ : O → O'}
    {h : Handler Chronicled Rest Dist Float S O} {h' : Handler Chronicled Rest Dist Float S' O'}
    (handles : Handles (T := telling id) .unmoved χ ψ h h') {rounds : Nat}
    (enough : ∀ᶠ j in Filter.atTop, rounds < more j) (state : S) (k : Rest) (s : Store) (v : Value) :
    Tracks .unending (telling id) ψ
      (fun j => handing depth (x j (.give k s v)) >>=
        drive (fun k s v => handing depth (x j (.give k s v))) h (more j) state)
      (promptResume cx depth fuel k s v >>=
        drive (promptResume cx depth fuel) h' rounds (χ state)) := by
  have refuses {rounds : Nat} {more : Nat → Nat} (enough : ∀ᶠ j in Filter.atTop, rounds < more j)
      (state : S) (v : Value) : ∀ᶠ j in Filter.atTop,
      drive (fun k s v => handing depth (x j (.give k s v))) h (more j) state (.stray v) =
        throw (.inference (.strayResult v)) := by
    filter_upwards [enough] with j enough
    rw [show more j = more j - 1 + 1 by omega]
    rfl
  induction rounds generalizing more state k s v with
  | zero => exact (runs (.give k s v)).checked depth (refuses enough state) fun _ _ => .lost rfl
  | succ rounds ih =>
    refine (runs (.give k s v)).checked depth (refuses enough state) fun step _ => ?_
    have fewer : ∀ᶠ j in Filter.atTop, rounds < more j - 1 := enough.mono fun j enough => by omega
    have reacts := react_tracks telling_serves handles (ih fewer) state step
    change Tracks _ _ _ _ (drive _ _ _ _ (step.relabel (.unmoved : Relabelling id Rest Rest))) at reacts
    rw [Step.relabel_unmoved] at reacts
    refine reacts.of_eventually (enough.mono fun j enough => ?_)
    rw [show more j - 1 + 1 = more j by omega]

/-- A strategy comes with more fuel to what its prompt counterpart comes to. -/
theorem answer_finally (enough : ∀ᶠ j in Filter.atTop, fuel < more j) (i : Inference) (s : Store) :
    Finally (fun j => installed i.active (i.strategy.estimate
      (fun k s v => handing depth (x j (.give k s v))) (more j) i.entry s))
      (promptAnswer cx depth fuel i s) := by
  have along : Alongside .unending (T := telling id) .unmoved
      (fun j k s v => handing depth (x j (.give k s v))) (promptResume cx depth fuel) more fuel :=
    { sustains := telling_sustains nofun
      fuelled := enough.mono fun _ enough => .inr ⟨rfl, enough.le⟩
      drives := fun handles state k s v => drive_promptly runs handles enough state k s v }
  exact answers_telling along i s

end

/-- A run comes with enough fuel to what its prompt counterpart comes to. -/
theorem run_finally (cx : Context) (depth fuel : Nat) (control : Control) :
    Finally (fun more => run cx depth more control) (promptRun cx depth fuel control) := by
  induction fuel generalizing depth control with
  | zero => exact .lost rfl
  | succ fuel ih =>
    refine Tracks.of_eventually (x := fun more => run cx depth (more - 1 + 1) control) ?_ ?_
    · simp only [run_succ]
      rw [promptRun_succ]
      refine Tracks.bind (moving_alike control).tracks fun move => ?_
      cases move with
      | go next => exact (ih depth next).later 1
      | rest step => exact .pure step
      | infer i s k =>
        have enough : ∀ᶠ more in Filter.atTop, fuel < more - 1 := by
          filter_upwards [Filter.eventually_ge_atTop (fuel + 2)] with more enough
          omega
        have answers := answer_finally (fun control => (ih (depth + 1) control).later 1) enough i s
        exact Tracks.bind answers fun m => (ih depth _).later 1
    · filter_upwards [Filter.eventually_ge_atTop 1] with more enough
      rw [Nat.sub_add_cancel enough]

/-- The failures of the prompt one are final. -/
theorem Finally.fails {x : Nat → Chronicled α} {y : Chronicled α} (finally_ : Finally x y) {w : World}
    {e : Failure} {z : Chronicle} (failed : y (.start w) = .error e z) (known : e ≠ .outOfFuel) :
    ∃ enough, ∀ more, enough ≤ more → ∃ z', x more (.start w) = .error e z' := by
  obtain ⟨_, _, lost, failed'⟩ | ⟨r, ends, agree⟩ :=
    finally_ () (.start w) (.start w) ⟨rfl, rfl, trivial⟩
  · obtain ⟨rfl, _⟩ := EStateM.Result.error.inj (failed.symm.trans failed')
    exact absurd lost known
  · rw [failed] at agree
    obtain ⟨enough, ends⟩ := Filter.eventually_atTop.mp ends
    obtain ⟨_, _, _, _, other, _⟩ | ⟨e', _, z', _, rfl, failed', moved, _⟩ := agree.cases
    · cases other
    · obtain ⟨rfl, rfl⟩ := EStateM.Result.error.inj failed'
      obtain rfl := moved.eq_of_id
      exact ⟨enough, fun more many => ⟨z', ends more many⟩⟩

/-- If an execution skipped its final continuation, then a prompt one failed by itself. -/
theorem promptAnswer_fails (cx : Context) (fuel : Nat) (i : Inference) (s : Store) (w : World)
    (strayed : ¬ Clean (ended (answer cx 0 fuel i s (.start w))).handed) :
    ∃ v z, promptAnswer cx 0 fuel i s (.start w) = .error (.inference (.strayResult v)) z := by
  obtain ⟨_, z, ⟨v, rfl⟩, failed⟩ | ⟨r, ends, agree⟩ :=
    answer_promptly (run_promptly cx 0 fuel) i s () (.start w) (.start w) ⟨rfl, rfl, nofun⟩
  · exact ⟨v, z, failed⟩
  · refine absurd ?_ strayed
    rw [show answer cx 0 fuel i s (.start w) = r from Filter.eventually_pure.mp ends]
    obtain ⟨_, _, _, rfl, _, held⟩ | ⟨_, _, _, _, rfl, _, _, held⟩ := agree.cases
    · exact held.2.2
    · exact held.2.2

/-- Then its strategy fails because one did, with any larger amount of fuel from some on. -/
theorem strays_refused (cx : Context) (fuel : Nat) (i : Inference) (s : Store) (w : World)
    (strayed : ¬ Clean (ended (answer cx 0 fuel i s (.start w))).handed) :
    ∃ v enough, ∀ more, enough ≤ more → ∃ z,
      answer cx 0 more i s (.start w) = .error (.inference (.strayResult v)) z := by
  obtain ⟨v, z, failed⟩ := promptAnswer_fails cx fuel i s w strayed
  have reached := answer_finally (run_finally cx 0 fuel) (Filter.eventually_gt_atTop fuel) i s
  exact ⟨v, reached.fails failed nofun⟩

end ProbCore
