import ProbCore.Instance.Estimates
import ProbCore.Proofs.LawfulHost
import ProbCore.Proofs.Mirroring

/-! What the fields of an instance do for its calls. A call that records an execution sets the fields that it reads,
and finds in them what a run without fields hands on from step to step. So it does not matter what the fields were
before: the call does what the computation without fields does. -/

namespace ProbCore.Instance

variable {σ κ D R α β α' β' γ : Type}

/-- A call and a computation come to the same. When they return, `rel` holds of the answer of the call, of the fields
that it leaves, and of the answer of the computation. -/
def Meets (rel : α → Fields κ D R → β → Prop) :
    EStateM.Result Failure (Fields κ D R × σ) α → EStateM.Result Failure σ β → Prop
  | .ok a (f, w), .ok b v => w = v ∧ rel a f b
  | .error e (_, w), .error e' v => e' = e ∧ w = v
  | _, _ => False

/-- From fields `f` the call `x` does what the computation `y` does. -/
def Enacts (f : Fields κ D R) (x : Act σ κ D R α) (y : EStateM Failure σ β) (rel : α → Fields κ D R → β → Prop) :
    Prop :=
  ∀ w, Meets rel (x (f, w)) (y w)

/-- The call does what the computation does, and no more is said of the fields. -/
abbrev Answers (f : Fields κ D R) (x : Act σ κ D R α) (y : EStateM Failure σ α) : Prop :=
  Enacts f x y fun a _ b => a = b

theorem Act.host_of_ok {x : EStateM Failure σ α} {f : Fields κ D R} {a : α} {w w' : σ} (ran : x w = .ok a w') :
    Act.host x (f, w) = .ok a (f, w') := by
  simp only [Act.host, ran]

theorem Act.host_of_error {x : EStateM Failure σ α} {f : Fields κ D R} {e : Failure} {w w' : σ}
    (ran : x w = .error e w') : Act.host x (f, w) = .error e (f, w') := by
  simp only [Act.host, ran]

/-- Whatever the fields, the call does what the computation does, and leaves of the fields what `kept` tells as it
was. -/
def Heedless (kept : Fields κ D R → γ) (x : Act σ κ D R α) (y : EStateM Failure σ α) : Prop :=
  ∀ f, Enacts f x y fun a f' b => a = b ∧ kept f' = kept f

namespace Enacts

variable {f : Fields κ D R} {x : Act σ κ D R α} {y : EStateM Failure σ β} {rel : α → Fields κ D R → β → Prop}

theorem pure {a : α} {b : β} (holds : rel a f b) : Enacts f (Pure.pure a : Act σ κ D R α) (Pure.pure b) rel :=
  fun _ => ⟨rfl, holds⟩

theorem fail [Host (EStateM Failure σ) D R] [LawfulHost σ D R] (e : Failure) :
    Enacts f (throw e : Act σ κ D R α) (Host.fail e) rel := by
  rw [LawfulHost.fail_eq]
  exact fun _ => ⟨rfl, rfl⟩

theorem bind {g : α → Act σ κ D R α'} {h : β → EStateM Failure σ β'} {rel' : α' → Fields κ D R → β' → Prop}
    (first : Enacts f x y rel) (next : ∀ a f' b, rel a f' b → Enacts f' (g a) (h b) rel') :
    Enacts f (x >>= g) (y >>= h) rel' := by
  intro w
  have met := first w
  cases ran : x (f, w) <;> cases ran' : y w <;> rw [ran, ran'] at met
  · obtain ⟨rfl, holds⟩ := met
    rw [bind_of_ok ran, bind_of_ok ran']
    exact next _ _ _ holds _
  · cases met
  · cases met
  · rw [bind_of_error ran, bind_of_error ran']
    exact met

theorem imp {rel' : α → Fields κ D R → β → Prop} (enacts : Enacts f x y rel)
    (weaker : ∀ a f' b, rel a f' b → rel' a f' b) : Enacts f x y rel' := by
  intro w
  have met := enacts w
  cases ran : x (f, w) <;> cases ran' : y w <;> rw [ran, ran'] at met
  · exact ⟨met.1, weaker _ _ _ met.2⟩
  · cases met
  · cases met
  · exact met

/-- The call leaves its host as the computation does. -/
theorem ended_host (enacts : Enacts f x y rel) (w : σ) : (ended (x (f, w))).2 = ended (y w) := by
  have met := enacts w
  cases ran : x (f, w) <;> cases ran' : y w <;> rw [ran, ran'] at met
  · exact met.1.symm ▸ rfl
  · cases met
  · cases met
  · exact met.2

theorem host (z : EStateM Failure σ α) :
    Enacts f (Act.host z : Act σ κ D R α) z fun a f' b => f' = f ∧ a = b := by
  intro w
  cases ran : z w with
  | ok a w' =>
    rw [Act.host_of_ok ran]
    exact ⟨rfl, rfl, rfl⟩
  | error e w' =>
    rw [Act.host_of_error ran]
    exact ⟨rfl, rfl⟩

theorem host_bind {z : EStateM Failure σ α'} {g : α' → Act σ κ D R α} {h : α' → EStateM Failure σ β}
    (next : ∀ a, Enacts f (g a) (h a) rel) : Enacts f (Act.host z >>= g) (z >>= h) rel := by
  refine (host z).bind ?_
  rintro a _ _ ⟨rfl, rfl⟩
  exact next a

theorem fields_bind {g : Fields κ D R → Act σ κ D R α} (next : Enacts f (g f) y rel) :
    Enacts f (Act.fields >>= g) y rel := next

theorem update_bind {u : Fields κ D R → Fields κ D R} {g : Unit → Act σ κ D R α} (next : Enacts (u f) (g ()) y rel) :
    Enacts f (Act.update u >>= g) y rel := next

theorem ite {c : Prop} [Decidable c] {x' : Act σ κ D R α} {y' : EStateM Failure σ β} (yes : c → Enacts f x y rel)
    (no : ¬ c → Enacts f x' y' rel) : Enacts f (if c then x else x') (if c then y else y') rel := by
  split
  next holds => exact yes holds
  next fails => exact no fails

end Enacts

namespace Heedless

variable {kept : Fields κ D R → γ} {x : Act σ κ D R α} {y : EStateM Failure σ α}

theorem pure (a : α) : Heedless kept (Pure.pure a : Act σ κ D R α) (Pure.pure a) := fun _ => .pure ⟨rfl, rfl⟩

theorem fail [Host (EStateM Failure σ) D R] [LawfulHost σ D R] (e : Failure) :
    Heedless kept (throw e : Act σ κ D R α) (Host.fail e) := fun _ => .fail e

theorem host (y : EStateM Failure σ α) : Heedless kept (Act.host y) y := by
  refine fun _ => (Enacts.host y).imp ?_
  rintro _ _ _ ⟨rfl, same⟩
  exact ⟨same, rfl⟩

theorem bind {g : α → Act σ κ D R β} {h : α → EStateM Failure σ β} (first : Heedless kept x y)
    (next : ∀ a, Heedless kept (g a) (h a)) : Heedless kept (x >>= g) (y >>= h) := by
  intro f
  refine (first f).bind ?_
  rintro a f' _ ⟨rfl, same⟩
  rw [← same]
  exact next a f'

theorem ite {c : Prop} [Decidable c] {x' : Act σ κ D R α} {y' : EStateM Failure σ α} (yes : Heedless kept x y)
    (no : Heedless kept x' y') : Heedless kept (if c then x else x') (if c then y else y') :=
  fun f => .ite (fun _ => yes f) fun _ => no f

theorem mapM {g : α → Act σ κ D R β} {h : α → EStateM Failure σ β} (each : ∀ a, Heedless kept (g a) (h a))
    (as : List α) : Heedless kept (as.mapM g) (as.mapM h) := by
  induction as with
  | nil => exact .pure _
  | cons a as ih =>
    rw [List.mapM_cons, List.mapM_cons]
    exact (each a).bind fun b => ih.bind fun bs => .pure _

theorem answers (heedless : Heedless kept x y) (f : Fields κ D R) : Answers f x y :=
  (heedless f).imp fun _ _ _ both => both.1

/-- On a new instance the call is the computation. -/
theorem onNew [Score R] (heedless : Heedless kept x y) : Act.onNew x = y := by
  funext w
  have met := heedless .new w
  unfold Act.onNew
  cases ran : x (.new, w) <;> cases ran' : y w <;> rw [ran, ran'] at met
  · obtain ⟨rfl, rfl, _⟩ := met
    rfl
  · cases met
  · cases met
  · obtain ⟨rfl, rfl⟩ := met
    rfl

end Heedless

section

variable [Host (EStateM Failure σ) D R] {S O : Type}

/-- What a hook answers is what a handler answers: `holds` of the state that goes on and the fields, `ends` of the
outcome. -/
def Corresponds (holds : S → Fields κ D R → Prop) (ends : Signal → Fields κ D R → O → Prop) :
    Answer → Fields κ D R → Reaction S O → Prop
  | .goOn v, f, .deliver state v' => v' = v ∧ holds state f
  | .signal signal, f, .finish outcome => ends signal f outcome
  | _, _, _ => False

/-- Hooks that find in the fields what a handler is handed. -/
structure Plays (hooks : Hooks σ κ D R) (handler : Handler (EStateM Failure σ) κ D R S O)
    (holds : S → Fields κ D R → Prop) (ends : Signal → Fields κ D R → O → Prop) : Prop where
  sample {state : S} {f : Fields κ D R} (s : Store) (k : κ) (a : Address) (d : D) : holds state f →
    Enacts f (hooks.sample s k a d) (handler.sample state s k a d) (Corresponds holds ends)
  factor {state : S} {f : Fields κ D R} (s : Store) (k : κ) (a : Address) (x : R) : holds state f →
    Enacts f (hooks.factor s k a x) (handler.factor state s k a x) (Corresponds holds ends)
  exit {state : S} {f : Fields κ D R} (s : Store) (v : Value) : holds state f →
    Enacts f (hooks.exit s v) (handler.exit state s v) ends

variable [LawfulHost σ D R] {hooks : Hooks σ κ D R} {handler : Handler (EStateM Failure σ) κ D R S O}
  {holds : S → Fields κ D R → Prop} {ends : Signal → Fields κ D R → O → Prop}

omit [LawfulHost σ D R] in
/-- After a hook and a handler have answered alike, either both go on or both leave the rest. -/
theorem Corresponds.goes {resume : Resume (EStateM Failure σ) κ D R} {fuel : Nat} {f : Fields κ D R}
    (next : ∀ {state : S} {f : Fields κ D R} (step : Step κ D R), holds state f →
      Enacts f (Instance.trampoline resume hooks fuel step) (drive resume handler fuel state step) ends)
    (s : Store) (k : κ) {x : Act σ κ D R Answer} {y : EStateM Failure σ (Reaction S O)}
    (answers : Enacts f x y (Corresponds holds ends)) :
    Enacts f
      (do match ← x with
        | .goOn value => Instance.trampoline resume hooks fuel (← Act.host (resume k s value))
        | .signal signal => return signal)
      (do match ← y with
        | .deliver state value => do drive resume handler fuel state (← resume k s value)
        | .finish outcome => Pure.pure outcome)
      ends := by
  refine answers.bind fun answer f' reaction agree => ?_
  cases answer <;> cases reaction
  · obtain ⟨rfl, held⟩ := agree
    exact .host_bind fun step => next step held
  · cases agree
  · cases agree
  · exact .pure agree

/-- A whole execution under the hooks is one under the handler. -/
theorem Plays.trampoline (plays : Plays hooks handler holds ends) (resume : Resume (EStateM Failure σ) κ D R)
    (fuel : Nat) {state : S} {f : Fields κ D R} (step : Step κ D R) (held : holds state f) :
    Enacts f (Instance.trampoline resume hooks fuel step) (drive resume handler fuel state step) ends := by
  induction fuel generalizing state f step with
  | zero => exact .fail _
  | succ fuel ih =>
    cases step with
    | sample s k a d => exact Corresponds.goes ih s k (plays.sample s k a d held)
    | factor s k a x => exact Corresponds.goes ih s k (plays.factor s k a x held)
    | exit s v => exact plays.exit s v held
    | stray v => exact .fail _

end

section

open Kernel

variable [Host (EStateM Failure σ) D R] [Score R] [LawfulHost σ D R] {resume : Resume (EStateM Failure σ) κ D R}
  {fuel : Nat}

/-- The fields hold a recording, what it goes by, and arrivals. -/
structure Records (limit : Option Nat) (old : Option (Trace κ D R)) (arrivals : Cascade.Arrivals R)
    (tape : Recording κ D R) (f : Fields κ D R) : Prop where
  tape : f.tape = tape
  limit : f.limit = limit
  old : f.old = old
  arrivals : f.arrivals = arrivals

/-- The last trace made is the one recorded, and the fields tell of it what the recording does. -/
def Recorded (arrivals : Cascade.Arrivals R) (signal : Signal) (f : Fields κ D R) :
    Option (Kernel.Recorded κ D R) → Prop
  | none => signal = .rejected ∧ f.arrivals = arrivals
  | some r => signal ≠ .rejected ∧ f.result = some r.trace ∧ f.tape.reused = r.reused ∧ f.tape.fresh = r.fresh ∧
      f.arrivals = arrivals

theorem kernel_plays (limit : Option Nat) (old : Option (Trace κ D R)) (arrivals : Cascade.Arrivals R) :
    Plays (kernelHooks : Hooks σ κ D R) (Kernel.handler limit old) (Records limit old arrivals)
      (Recorded arrivals) where
  sample {tape f} s k a d held := by
    obtain ⟨rfl, rfl, rfl, rfl⟩ := held
    refine .ite (fun _ => .fail _) fun _ => .fields_bind (.host_bind fun carried => ?_)
    cases carried with
    | some value =>
      refine .update_bind (.host_bind fun lp => .ite (fun _ => .pure ⟨rfl, rfl⟩) fun _ => .update_bind (.pure ?_))
      exact ⟨rfl, rfl, rfl, rfl, rfl⟩
    | none =>
      refine .host_bind fun value => .host_bind fun lp => .update_bind ?_
      refine .ite (fun _ => .pure ⟨rfl, rfl⟩) fun _ => .update_bind (.pure ?_)
      exact ⟨rfl, rfl, rfl, rfl, rfl⟩
  factor {tape f} s k a x held := by
    obtain ⟨rfl, rfl, rfl, rfl⟩ := held
    refine .ite (fun _ => .pure ⟨rfl, rfl⟩) fun _ => .update_bind (.fields_bind ?_)
    dsimp only
    cases f.limit with
    | none => exact .pure ⟨rfl, rfl, rfl, rfl, rfl⟩
    | some n =>
      refine .ite (fun _ => .update_bind (.pure ⟨nofun, rfl, rfl, rfl, rfl⟩)) fun _ => ?_
      exact .pure ⟨rfl, rfl, rfl, rfl, rfl⟩
  exit {tape f} s v held := by
    obtain ⟨rfl, rfl, rfl, rfl⟩ := held
    exact .update_bind (.pure ⟨nofun, rfl, rfl, rfl, rfl⟩)

/-- The trace that a run leaves, and what its fields tell of the recording. -/
def Left (arrivals : Cascade.Arrivals R) (t : Option (Trace κ D R)) (f : Fields κ D R) :
    Option (Kernel.Recorded κ D R) → Prop
  | none => t = none ∧ f.arrivals = arrivals
  | some r => t = some r.trace ∧ f.tape.reused = r.reused ∧ f.tape.fresh = r.fresh ∧ f.arrivals = arrivals

theorem run_enacts {limit : Option Nat} {old : Option (Trace κ D R)} {arrivals : Cascade.Arrivals R}
    {tape : Recording κ D R} {f : Fields κ D R} (records : Records limit old arrivals tape f) (step : Step κ D R) :
    Enacts f (run resume fuel step) (drive resume (Kernel.handler limit old) fuel tape step) (Left arrivals) := by
  rw [← bind_pure (drive resume _ fuel tape step)]
  refine ((kernel_plays limit old arrivals).trampoline resume fuel step records).bind ?_
  intro signal f' outcome recorded
  cases outcome with
  | none =>
    obtain ⟨rfl, kept⟩ := recorded
    exact .pure ⟨rfl, kept⟩
  | some r =>
    obtain ⟨ended, result, told⟩ := recorded
    cases signal with
    | rejected => exact absurd rfl ended
    | done | suspended => exact .fields_bind (.pure ⟨result, told⟩)

theorem extend_heedless (t : Trace κ D R) (limit : Option Nat) :
    Heedless Fields.arrivals (extend resume fuel t limit) (Kernel.extend resume fuel t limit) := by
  intro f
  unfold extend Kernel.extend
  cases t.ending with
  | done v => exact .pure ⟨rfl, rfl⟩
  | suspended k =>
    refine .update_bind (.host_bind fun step => ?_)
    rw [← bind_pure (run resume fuel step)]
    refine (run_enacts ⟨rfl, rfl, rfl, rfl⟩ step).bind fun left f' outcome leaves => ?_
    cases outcome with
    | none =>
      obtain ⟨rfl, kept⟩ := leaves
      exact .pure ⟨rfl, kept⟩
    | some r => exact .pure ⟨leaves.1, leaves.2.2.2⟩

theorem findStart_heedless (entry : κ) (s : Store) (limit : Option Nat) (attempts : Given Nat) :
    Heedless Fields.arrivals (findStart resume fuel entry s limit attempts)
      (Kernel.findStart resume fuel entry s limit attempts) := by
  have goes (remaining attempt : Nat) :
      Heedless Fields.arrivals (findStart.go resume fuel entry s limit attempts remaining attempt)
        (Kernel.findStart.go resume fuel entry s limit attempts remaining attempt) := by
    induction remaining generalizing attempt with
    | zero => exact .fail _
    | succ remaining ih =>
      refine (extend_heedless _ limit).bind fun t => ?_
      cases t with
      | none => exact ih _
      | some t => exact .ite ((Heedless.host _).bind fun _ => .pure t) (ih _)
  exact goes _ _

theorem regenerate_heedless (t : Trace κ D R) (limit : Option Nat) :
    Heedless Fields.arrivals (regenerate resume fuel t limit) (Kernel.regenerate resume fuel t limit) := by
  intro f
  refine .ite (fun _ => .pure ⟨rfl, rfl⟩) fun _ => .host_bind fun i => ?_
  cases t.choices[i]? with
  | none => exact .pure ⟨rfl, rfl⟩
  | some site =>
    refine .host_bind fun value => .host_bind fun lp => .ite (fun _ => .pure ⟨rfl, rfl⟩) fun _ => ?_
    refine .update_bind (.update_bind (.update_bind (.host_bind fun step => ?_)))
    refine (run_enacts ⟨rfl, rfl, rfl, rfl⟩ step).bind fun left f' outcome leaves => ?_
    cases outcome with
    | none =>
      obtain ⟨rfl, kept⟩ := leaves
      exact .pure ⟨rfl, kept⟩
    | some r =>
      obtain ⟨rfl, reused, fresh, kept⟩ := leaves
      refine .fields_bind (.pure ⟨?_, kept⟩)
      rw [reused, fresh]

theorem move_heedless (t : Trace κ D R) (limit : Option Nat) :
    Heedless Fields.arrivals (move resume fuel t limit) (Kernel.move resume fuel t limit) := by
  refine (regenerate_heedless t limit).bind fun proposal => ?_
  cases proposal with
  | none => exact .pure _
  | some proposal => exact (Heedless.host _).bind fun u => .ite (.pure _) (.pure _)

end

end ProbCore.Instance
