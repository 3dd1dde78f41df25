import ProbCore.Proofs.LawfulHost

/-! Programs that use nothing but their store, their arguments and the choices and factors
they ask their strategy for. Such a program is a function: where a suspended rest comes to
rest again depends on the store and the value that it is resumed with, and on nothing else. -/

namespace ProbCore

variable {κ D R : Type}

/-- The suspended rest that a step waits with. -/
def Step.rest? : Step κ D R → Option κ
  | .sample _ k _ _ | .factor _ k _ _ => some k
  | .exit _ _ | .stray _ => none

structure PlainProgram (κ D R : Type) where
  entry : κ
  next : κ → Store → Value → Except Failure (Step κ D R)

/-- The program on any host. -/
def PlainProgram.resume {m : Type → Type} [Monad m] [Host m D R] (P : PlainProgram κ D R) :
    Resume m κ D R :=
  fun k s v => Host.lift (P.next k s v)

variable {σ : Type} [Host (EStateM Failure σ) D R] [LawfulHost σ D R]

/-- A way to resume rests performs a program when the rests that the program can reach all go
on as the program says, whatever the state of the host. `inside` holds of these rests. -/
structure Performs (resume : Resume (EStateM Failure σ) κ D R) (P : PlainProgram κ D R)
    (inside : κ → Prop) : Prop where
  entry : inside P.entry
  follows {k : κ} (s : Store) (v : Value) : inside k → Follows (resume k s v) (P.next k s v)
  closed {k : κ} {s : Store} {v : Value} {step : Step κ D R} {rest : κ} :
    inside k → P.next k s v = .ok step → step.rest? = some rest → inside rest

theorem Performs.returns {resume : Resume (EStateM Failure σ) κ D R} {P : PlainProgram κ D R}
    {inside : κ → Prop} (performs : Performs resume P inside) {k : κ} {s : Store} {v : Value}
    {step : Step κ D R} (held : inside k) (goes : P.next k s v = .ok step) :
    Returns (resume k s v) step := by
  have follows := performs.follows s v held
  rw [goes] at follows
  exact follows

theorem Performs.next_eq {resume : Resume (EStateM Failure σ) κ D R} {P : PlainProgram κ D R}
    {inside : κ → Prop} (performs : Performs resume P inside) {k : κ} {s : Store} {v : Value}
    {step : Step κ D R} {w w' : σ} (held : inside k) (ready : LawfulHost.ready w)
    (resumed : resume k s v w = .ok step w') :
    P.next k s v = .ok step ∧ LawfulHost.ready w' := by
  have follows := performs.follows s v held
  cases goes : P.next k s v with
  | ok other =>
    rw [goes] at follows
    obtain ⟨_, returned, kept⟩ := follows w ready
    rw [resumed] at returned
    cases returned
    exact ⟨rfl, kept⟩
  | error e =>
    rw [goes] at follows
    obtain ⟨_, failed⟩ := follows w ready
    rw [resumed] at failed
    cases failed

theorem PlainProgram.resume_performs (P : PlainProgram κ D R) :
    Performs (σ := σ) P.resume P fun _ => True where
  entry := trivial
  follows {k} s v _ := by
    unfold PlainProgram.resume
    cases P.next k s v with
    | ok step => exact Returns.pure step
    | error e =>
      intro w _
      refine ⟨w, ?_⟩
      rw [Host.lift, LawfulHost.fail_eq]
      rfl
  closed _ _ _ := trivial

end ProbCore
