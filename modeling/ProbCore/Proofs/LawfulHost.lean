import ProbCore.Strategy.Step

/-! Hosts whose densities and supports are plain functions of the distribution. A strategy
runs on the state of its host. What it certainly returns is what it returns from every state
in which the host is ready to serve it. -/

namespace ProbCore

/-- What distributions answer when they are asked for their values and densities. -/
structure Densities (D R : Type) where
  enumerable : D → Bool
  support : D → Except Failure (List Value)
  logDensity : D → Value → Except Failure R

namespace Densities

variable {D R : Type} [Score R]

def accepts (laws : Densities D R) (d : D) (value : Value) : Except Failure Bool :=
  if laws.enumerable d then do return (← laws.support d).contains value
  else do return Score.isFinite (← laws.logDensity d value)

end Densities

/-- A host that keeps its own state, answers questions about distributions from `densities`,
and stays ready whatever it is asked to do. -/
class LawfulHost (σ : Type) (D R : outParam Type) [Host (EStateM Failure σ) D R] where
  densities : Densities D R
  ready : σ → Prop
  exists_ready : ∃ w, ready w
  fail_eq {α : Type} (e : Failure) : (Host.fail e : EStateM Failure σ α) = throw e
  enumerable_eq (d : D) : Host.enumerable (EStateM Failure σ) d = densities.enumerable d
  support_eq (d : D) : (Host.support d : EStateM Failure σ _) = Host.lift (densities.support d)
  logDensity_eq (d : D) (v : Value) :
    (Host.logDensity d v : EStateM Failure σ R) = Host.lift (densities.logDensity d v)
  note_ready (n : Notice) {w : σ} : ready w →
    ∃ w', (Host.note n : EStateM Failure σ Unit) w = .ok () w' ∧ ready w'
  draw_ready {d : D} {v : Value} {w w' : σ} : ready w →
    (Host.draw d : EStateM Failure σ Value) w = .ok v w' → ready w'
  logUniform_ready {x : R} {w w' : σ} : ready w →
    (Host.logUniform : EStateM Failure σ R) w = .ok x w' → ready w'
  indexBelow_ready {n i : Nat} {w w' : σ} : ready w →
    (Host.indexBelow n : EStateM Failure σ Nat) w = .ok i w' → ready w'

variable {σ D R : Type} [Host (EStateM Failure σ) D R] {α β : Type}

/-- A sequence of computations succeeds exactly when its parts do, each from the state that
the one before it left. -/
theorem bind_eq_ok {x : EStateM Failure σ α} {f : α → EStateM Failure σ β} {w w' : σ} {b : β} :
    (x >>= f) w = .ok b w' ↔ ∃ a middle, x w = .ok a middle ∧ f a middle = .ok b w' := by
  cases first : x w with
  | ok a middle =>
    have continued : (x >>= f) w = f a middle := by
      change EStateM.bind x f w = _
      simp only [EStateM.bind, first]
    simp only [continued, EStateM.Result.ok.injEq]
    constructor
    · exact fun returned => ⟨a, middle, ⟨rfl, rfl⟩, returned⟩
    · rintro ⟨_, _, ⟨rfl, rfl⟩, returned⟩
      exact returned
  | error e middle =>
    have failed : (x >>= f) w = .error e middle := by
      change EStateM.bind x f w = _
      simp only [EStateM.bind, first]
    simp [failed]

theorem pure_eq_ok {a b : α} {w w' : σ} :
    (pure a : EStateM Failure σ α) w = .ok b w' ↔ b = a ∧ w' = w := by
  change EStateM.Result.ok a w = .ok b w' ↔ _
  simp only [EStateM.Result.ok.injEq, eq_comm]

variable [LawfulHost σ D R]

theorem lift_eq_ok {r : Except Failure α} {a : α} {w w' : σ} :
    (Host.lift r : EStateM Failure σ α) w = .ok a w' ↔ r = .ok a ∧ w' = w := by
  cases r with
  | ok b =>
    simp only [Host.lift, pure_eq_ok, Except.ok.injEq]
    exact and_congr_left' eq_comm
  | error e =>
    simp only [Host.lift, LawfulHost.fail_eq, reduceCtorEq, false_and, iff_false]
    exact fun impossible => nomatch impossible

theorem lift_bind (r : Except Failure α) (f : α → Except Failure β) :
    (Host.lift (r >>= f) : EStateM Failure σ β) = Host.lift r >>= fun a => Host.lift (f a) := by
  cases r with
  | ok a => rfl
  | error e =>
    change (Host.fail e : EStateM Failure σ β) = Host.fail e >>= _
    rw [LawfulHost.fail_eq, LawfulHost.fail_eq]
    rfl

theorem fail_ne_ok {e : Failure} {a : α} {w w' : σ} :
    ¬ (Host.fail e : EStateM Failure σ α) w = .ok a w' := by
  rw [LawfulHost.fail_eq]
  exact fun impossible => nomatch impossible

theorem logDensity_eq_ok {d : D} {v : Value} {x : R} {w w' : σ} :
    (Host.logDensity d v : EStateM Failure σ R) w = .ok x w' ↔
      (LawfulHost.densities σ).logDensity d v = .ok x ∧ w' = w := by
  rw [LawfulHost.logDensity_eq]
  exact lift_eq_ok

/-- From every state in which the host is ready, the computation returns this value. -/
def Returns (x : EStateM Failure σ α) (a : α) : Prop :=
  ∀ w, LawfulHost.ready w → ∃ w', x w = .ok a w' ∧ LawfulHost.ready w'

/-- From some state in which the host is ready, the computation returns this value. -/
def CanReturn (x : EStateM Failure σ α) (a : α) : Prop :=
  ∃ w w', LawfulHost.ready w ∧ x w = .ok a w'

/-- From every state in which the host is ready, the computation fails in this way. -/
def Fails (x : EStateM Failure σ α) (e : Failure) : Prop :=
  ∀ w, LawfulHost.ready w → ∃ w', x w = .error e w'

theorem Returns.pure (a : α) : Returns (pure a : EStateM Failure σ α) a :=
  fun w ready => ⟨w, rfl, ready⟩

theorem Returns.bind {x : EStateM Failure σ α} {f : α → EStateM Failure σ β} {a : α} {b : β}
    (first : Returns x a) (rest : Returns (f a) b) : Returns (x >>= f) b := by
  intro w ready
  obtain ⟨middle, began, ready⟩ := first w ready
  obtain ⟨last, ended, ready⟩ := rest middle ready
  exact ⟨last, bind_eq_ok.mpr ⟨a, middle, began, ended⟩, ready⟩

theorem Returns.lift {r : Except Failure α} {a : α} (known : r = .ok a) :
    Returns (Host.lift r : EStateM Failure σ α) a := by
  subst known
  exact Returns.pure a

theorem Returns.note (n : Notice) : Returns (Host.note n : EStateM Failure σ Unit) () :=
  fun _ ready => LawfulHost.note_ready n ready

theorem Returns.unique {x : EStateM Failure σ α} {a b : α} (first : Returns x a)
    (second : CanReturn x b) : b = a := by
  obtain ⟨w, w', ready, returned⟩ := second
  obtain ⟨_, same, _⟩ := first w ready
  rw [returned] at same
  exact (EStateM.Result.ok.inj same).1

theorem Returns.canReturn {x : EStateM Failure σ α} {a : α} (returns : Returns x a) :
    CanReturn x a := by
  obtain ⟨w, ready⟩ := LawfulHost.exists_ready (σ := σ)
  obtain ⟨w', returned, _⟩ := returns w ready
  exact ⟨w, w', ready, returned⟩

/-- In every state in which the host is ready, the computation ends as the result says. -/
def Follows (x : EStateM Failure σ α) : Except Failure α → Prop
  | .ok a => Returns x a
  | .error e => Fails x e

theorem enough_fuel {holds : Nat → Prop} (now : ∀ fuel, holds (fuel + 1)) :
    ∃ n, ∀ fuel ≥ n, holds fuel := by
  refine ⟨1, fun fuel enough => ?_⟩
  obtain ⟨fuel, rfl⟩ := Nat.exists_eq_add_of_le' enough
  exact now fuel

theorem more_fuel {before holds : Nat → Prop} (reached : ∃ n, ∀ fuel ≥ n, before fuel)
    (step : ∀ fuel, before fuel → holds (fuel + 1)) : ∃ n, ∀ fuel ≥ n, holds fuel := by
  obtain ⟨n, reached⟩ := reached
  refine ⟨n + 1, fun fuel enough => ?_⟩
  obtain ⟨fuel, rfl⟩ := Nat.exists_eq_add_of_le' (Nat.le_trans (Nat.le_add_left 1 n) enough)
  exact step fuel (reached fuel (Nat.le_of_succ_le_succ enough))

section

variable {κ τ ο : Type} {resume : Resume (EStateM Failure σ) κ D R}
  {h : Handler (EStateM Failure σ) κ D R τ ο} {fuel : Nat} {state state' : τ} {outcome : ο}
  {s : Store} {k : κ} {a : Address} {v : Value} {next : Step κ D R}

theorem Returns.drive_exit (finished : Returns (h.exit state s v) outcome) :
    Returns (drive resume h (fuel + 1) state (.exit s v)) outcome := finished

theorem Returns.drive_factor {x : R} (reacted : Returns (h.factor state s k a x) (.deliver state' v))
    (resumed : Returns (resume k s v) next) (driven : Returns (drive resume h fuel state' next) outcome) :
    Returns (drive resume h (fuel + 1) state (.factor s k a x)) outcome :=
  reacted.bind (resumed.bind driven)

theorem Returns.drive_factor_finish {x : R}
    (reacted : Returns (h.factor state s k a x) (.finish outcome)) :
    Returns (drive resume h (fuel + 1) state (.factor s k a x)) outcome :=
  reacted.bind (Returns.pure outcome)

theorem Returns.drive_sample {d : D} (reacted : Returns (h.sample state s k a d) (.deliver state' v))
    (resumed : Returns (resume k s v) next) (driven : Returns (drive resume h fuel state' next) outcome) :
    Returns (drive resume h (fuel + 1) state (.sample s k a d)) outcome :=
  reacted.bind (resumed.bind driven)

theorem Returns.drive_sample_finish {d : D}
    (reacted : Returns (h.sample state s k a d) (.finish outcome)) :
    Returns (drive resume h (fuel + 1) state (.sample s k a d)) outcome :=
  reacted.bind (Returns.pure outcome)

end

variable [Score R]

theorem accepts_eq (d : D) (v : Value) :
    (Host.accepts d v : EStateM Failure σ Bool) =
      Host.lift ((LawfulHost.densities σ).accepts d v) := by
  unfold Host.accepts Densities.accepts
  rw [LawfulHost.enumerable_eq, LawfulHost.support_eq, LawfulHost.logDensity_eq]
  split
  · rw [lift_bind]
    rfl
  · rw [lift_bind]
    rfl

end ProbCore
