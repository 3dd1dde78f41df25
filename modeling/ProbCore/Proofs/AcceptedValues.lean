import ProbCore.Proofs.OrderlyStrategies
import ProbCore.Proofs.PromptRefusal

/-! Executions that skip their final continuation are never used. Whichever execution it is, one
that a strategy runs or one of an inference inside a program, whatever it was resumed from and
whatever was found before, the strategy fails. What a strategy answers is made of values that its
own executions came to at their final continuation, and that it did not reject there. -/

namespace ProbCore

open Machine

namespace Chronicled

variable {known : List Handed}

theorem installed_ok {α : Type} {a : Active} {act : Chronicled α} {x y : Chronicle} {b : α}
    (ran : installed a act x = .ok b y) :
    ∃ inside, act { x with world.strategies := a :: x.world.strategies } = .ok b inside := by
  unfold installed bracket at ran
  split at ran
  next b' inside came =>
    obtain ⟨rfl, rfl⟩ := EStateM.Result.ok.inj ran
    exact ⟨inside, came⟩
  next => cases ran

theorem lift_ok {α : Type} {r : Except Failure α} {x y : Chronicle} {a : α}
    (ran : (Host.lift r : Chronicled α) x = .ok a y) : r = .ok a := by
  cases r with
  | ok b =>
    obtain ⟨rfl, rfl⟩ := EStateM.Result.ok.inj ran
    rfl
  | error e => cases ran

theorem Orderly.moving (cx : Context) (control : Control) :
    Orderly known (fun _ _ => True) (moving cx control) := fun c clean present =>
  (Orderly.silent (advance cx control))
    { c with moves := ⟨cx, control, c.world⟩ :: c.moves } clean present

theorem answer_orderly {cx : Context} {depth fuel : Nat}
    (runs : ∀ control, Orderly [] (fun _ _ => True) (run cx depth fuel control)) (i : Inference)
    (s : Store) : Orderly known (Heard depth) (answer cx depth fuel i s) :=
  .installed _ (i.strategy.estimate_orderly (fun k s v => handing_hands (runs (.give k s v))) _ _)

/-- A run fails when an execution of an inference inside it skips its final continuation. -/
theorem run_orderly (cx : Context) (depth fuel : Nat) (control : Control) :
    Orderly known (fun _ _ => True) (run cx depth fuel control) := by
  induction fuel generalizing depth control known with
  | zero => exact .throw _
  | succ fuel ih =>
    rw [run_succ]
    refine (Orderly.moving cx control).bind fun move _ _ _ => ?_
    cases move with
    | go next => exact ih depth next
    | rest step => exact .pure fun _ _ => trivial
    | infer i s k =>
      exact (answer_orderly (fun control => ih (depth + 1) control) i s).bind fun _ _ _ _ => ih depth _

end Chronicled

open Chronicled

namespace Rejection

/-- Attempts one after another, from one chronicle to another, with the values that were accepted,
latest first. Each was come to by the attempt that was accepted. -/
inductive Attempts (depth : Nat) (attempt : Chronicled (Option Value)) (x : Chronicle) :
    List Value → Chronicle → Prop
  | start : Attempts depth attempt x [] x
  | reject {vs : List Value} {y z : Chronicle} : Attempts depth attempt x vs y →
      attempt y = .ok none z → Attempts depth attempt x vs z
  | accept {vs : List Value} {v : Value} {y z : Chronicle} : Attempts depth attempt x vs y →
      attempt y = .ok (some v) z → HaltedAfter y.handed depth z.handed v →
      Attempts depth attempt x (v :: vs) z

variable {depth fuel : Nat} {resume : Resume Chronicled Rest Dist Float}
  (resumes : ∀ k s v, Hands depth (resume k s v))
include resumes

theorem collect_accepts (c : Config Float) (entry : Rest) (s : Store) {remaining made count : Nat}
    {vs : List Value} {x y z : Chronicle} {out : List Value × Nat}
    (accepted : Attempts depth (attempt resume fuel c entry s) x vs y) (clean : Clean y.handed)
    (ran : collect resume fuel c entry s remaining made vs count y = .ok out z) :
    Attempts depth (attempt resume fuel c entry s) x out.1 z := by
  induction remaining generalizing made count vs y with
  | zero =>
    unfold collect at ran
    split at ran
    · obtain ⟨rfl, rfl⟩ := EStateM.Result.ok.inj ran
      exact accepted
    · cases ran
  | succ remaining ih =>
    unfold collect at ran
    split at ran
    · obtain ⟨rfl, rfl⟩ := EStateM.Result.ok.inj ran
      exact accepted
    · obtain ⟨outcome, middle, attempted, ran⟩ := bind_eq_ok.mp ran
      have ends : Ends y.handed (Attempted y.handed depth) (attempt resume fuel c entry s y) :=
        attempt_orderly resumes c entry s y.handed y clean List.suffix_rfl
      rw [attempted] at ends
      cases ends with
      | ok _ clean halted =>
        cases outcome with
        | none => exact ih (.reject accepted attempted) clean ran
        | some v => exact ih (.accept accepted attempted (halted v rfl)) clean ran

theorem estimate_accepts (c : Config Float) (entry : Rest) (s : Store) {x z : Chronicle}
    {M : Marginal Value Float} (clean : Clean x.handed)
    (ran : estimate resume fuel c entry s x = .ok M z) :
    ∃ vs y, Attempts depth (attempt resume fuel c entry s) x vs y ∧
      ∀ v, v ∈ M.values ∨ v ∈ M.samples → v ∈ vs := by
  obtain ⟨out, y, collected, concluded⟩ := bind_eq_ok.mp ran
  obtain ⟨_, _, _, concluded⟩ := bind_eq_ok.mp concluded
  refine ⟨out.1, y, collect_accepts resumes c entry s .start clean collected, fun v member => ?_⟩
  have pools : M.Pools out.1.reverse := ⟨_, _, _, _, lift_ok concluded, fun _ inside => inside⟩
  exact List.mem_reverse.mp (pools.mem member)

end Rejection

namespace Machine

/-- What an inference comes to, by what its executions and those of inferences inside them come
to. -/
structure Accounted (cx : Context) (fuel : Nat) (i : Inference) (s : Store) (w : World) : Prop where
  /-- What is written down is what happens. -/
  faithful : unchronicled (answer cx 0 fuel i s (.start w)) =
    Run.installed i.active (i.strategy.estimate (Machine.resume cx fuel) fuel i.entry s) w
  /-- If an execution skips its final continuation, then the inference fails for that reason. -/
  refused {h : Handed} {v : Value} : h ∈ (ended (answer cx 0 fuel i s (.start w))).handed →
    h.step = .stray v → ∃ v' enough, ∀ more, enough ≤ more → ∃ w',
      Run.installed i.active (i.strategy.estimate (Machine.resume cx more) more i.entry s) w =
        .error (.inference (.strayResult v')) w'
  /-- It does so right there, unless it runs out of fuel. -/
  reported {e : Failure} {x : Chronicle} : answer cx 0 fuel i s (.start w) = .error e x →
    Reports x.handed e
  /-- So all executions are complete if there is an answer. -/
  complete {M : Marginal Value Float} {x : Chronicle} :
    answer cx 0 fuel i s (.start w) = .ok M x → Clean x.handed
  /-- Executions of the inference itself came to the values in the answer. -/
  halted {M : Marginal Value Float} {x : Chronicle} :
    answer cx 0 fuel i s (.start w) = .ok M x → Heard 0 x.handed M
  /-- Where executions are rejected, these were accepted. -/
  accepted {c : Rejection.Config Float} {M : Marginal Value Float} {x : Chronicle} :
    i.strategy = .rejection c → answer cx 0 fuel i s (.start w) = .ok M x →
      ∃ vs y, Rejection.Attempts 0 (Rejection.attempt (Chronicled.resume cx 0 fuel) fuel c i.entry s)
          (.start { w with strategies := i.active :: w.strategies }) vs y ∧
        ∀ v, v ∈ M.values ∨ v ∈ M.samples → v ∈ vs

theorem answer_faithful (cx : Context) (fuel : Nat) (i : Inference) (s : Store) (w : World) :
    unchronicled (answer cx 0 fuel i s (.start w)) =
      Run.installed i.active (i.strategy.estimate (Machine.resume cx fuel) fuel i.entry s) w :=
  unchronicled_eq (fun since => answer_mirrors (succession_lasting since) cx 0 fuel i s) w

/-- No strategy uses an execution that skips its final continuation, whatever it runs it for. -/
theorem executions_accounted (cx : Context) (fuel : Nat) (i : Inference) (s : Store) (w : World) :
    Accounted cx fuel i s w := by
  have resumes (k : Rest) (s : Store) (v : Value) : Hands 0 (Chronicled.resume cx 0 fuel k s v) :=
    handing_hands (run_orderly cx 0 fuel _)
  have ends : Ends [] (Heard 0) (answer cx 0 fuel i s (.start w)) :=
    answer_orderly (run_orderly cx 0 fuel) i s (.start w) nofun List.suffix_rfl
  refine ⟨answer_faithful cx fuel i s w, fun member stray => ?_, fun failed => ?_, fun ran => ?_,
    fun ran => ?_, fun method ran => ?_⟩
  · obtain ⟨v, enough, refuses⟩ := strays_refused cx fuel i s w
      fun clean => clean _ member _ stray
    refine ⟨v, enough, fun more many => ?_⟩
    obtain ⟨x, failed⟩ := refuses more many
    exact ⟨x.world, by rw [← answer_faithful, failed]; rfl⟩
  · rw [failed] at ends
    cases ends with
    | error _ reports => exact reports
  · rw [ran] at ends
    cases ends with
    | ok _ clean _ => exact clean
  · rw [ran] at ends
    cases ends with
    | ok _ _ heard => exact heard
  · obtain ⟨inside, came⟩ := installed_ok ran
    rw [method] at came
    exact Rejection.estimate_accepts resumes _ i.entry s nofun came

end Machine

end ProbCore
