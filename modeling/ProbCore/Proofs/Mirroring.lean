import ProbCore.Proofs.Yields

/-! Two computations, each on a host of its own, that do the same. One mirrors the other when
from states that correspond they come to corresponding results and to states that correspond
again. -/

namespace ProbCore

/-- The state that a computation leaves behind, whatever came of it. -/
def ended {σ α : Type} : EStateM.Result Failure σ α → σ
  | .ok _ w | .error _ w => w

/-- Whether a report names no address but relative ones. -/
def Notice.placeless : Notice → Bool
  | running .. => false
  | _ => true

/-- The same failure, with the address that it names, if any, in another place. -/
inductive Failure.Moved (place : Address → Address) : Failure → Failure → Prop where
  | same (e : Failure) : Moved place e e
  | positiveFactor (x : Float) (a : Address) :
      Moved place (.configuration (.positiveFactor x a)) (.configuration (.positiveFactor x (place a)))

theorem Failure.Moved.eq_of_id {e e' : Failure} (moved : Failure.Moved id e e') : e' = e := by
  cases moved <;> rfl

/-- How the states of two hosts correspond, in one way for each setting in which the two may be
run. -/
structure Tie (ι σ τ : Type) where
  place : Address → Address
  holds : ι → σ → τ → Prop

variable {ι σ τ : Type} {α β α' β' γ γ' : Type}

theorem bind_of_ok {x : EStateM Failure σ α} {f : α → EStateM Failure σ α'} {w w' : σ} {a : α}
    (ran : x w = .ok a w') : (x >>= f) w = f a w' := by
  change EStateM.bind x f w = _
  rw [EStateM.bind, ran]

theorem bind_of_error {x : EStateM Failure σ α} {f : α → EStateM Failure σ α'} {w w' : σ}
    {e : Failure} (failed : x w = .error e w') : (x >>= f) w = .error e w' := by
  change EStateM.bind x f w = _
  rw [EStateM.bind, failed]

/-- Corresponding results in corresponding states. -/
def Tie.Agree (T : Tie ι σ τ) (i : ι) (φ : α → β) :
    EStateM.Result Failure σ α → EStateM.Result Failure τ β → Prop
  | .ok a w, .ok b w' => b = φ a ∧ T.holds i w w'
  | .error e w, .error e' w' => Failure.Moved T.place e e' ∧ T.holds i w w'
  | _, _ => False

/-- What agrees has come to corresponding values or to corresponding failures. -/
theorem Tie.Agree.cases {T : Tie ι σ τ} {i : ι} {φ : α → β} {r : EStateM.Result Failure σ α}
    {r' : EStateM.Result Failure τ β} (agree : T.Agree i φ r r') :
    (∃ a w w', r = .ok a w ∧ r' = .ok (φ a) w' ∧ T.holds i w w') ∨
      ∃ e e' w w', r = .error e w ∧ r' = .error e' w' ∧ Failure.Moved T.place e e' ∧
        T.holds i w w' := by
  cases r with
  | ok a w =>
    cases r' with
    | ok b w' =>
      obtain ⟨rfl, held⟩ := agree
      exact .inl ⟨a, w, w', rfl, rfl, held⟩
    | error => cases agree
  | error e w =>
    cases r' with
    | ok => cases agree
    | error e' w' => exact .inr ⟨e, e', w, w', rfl, rfl, agree⟩

theorem Tie.Agree.holds {T : Tie ι σ τ} {i : ι} {φ : α → β} {r : EStateM.Result Failure σ α}
    {r' : EStateM.Result Failure τ β} (agree : T.Agree i φ r r') :
    T.holds i (ended r) (ended r') := by
  obtain ⟨a, w, w', rfl, rfl, held⟩ | ⟨e, e', w, w', rfl, rfl, _, held⟩ := agree.cases
  · exact held
  · exact held

theorem Tie.Agree.imp {ι' : Type} {T : Tie ι σ τ} {T' : Tie ι' σ τ} {i : ι} {i' : ι'} {φ : α → β}
    {r : EStateM.Result Failure σ α} {r' : EStateM.Result Failure τ β} (agree : T.Agree i φ r r')
    (place : T.place = T'.place) (weaker : ∀ {w w'}, T.holds i w w' → T'.holds i' w w') :
    T'.Agree i' φ r r' := by
  obtain ⟨a, w, w', rfl, rfl, held⟩ | ⟨e, e', w, w', rfl, rfl, moved, held⟩ := agree.cases
  · exact ⟨rfl, weaker held⟩
  · exact ⟨place ▸ moved, weaker held⟩

def Mirrors (T : Tie ι σ τ) (φ : α → β) (x : EStateM Failure σ α) (y : EStateM Failure τ β) : Prop :=
  ∀ i w w', T.holds i w w' → T.Agree i φ (x w) (y w')

namespace Mirrors

variable {T : Tie ι σ τ} {φ : α → β} {ψ : α' → β'} {x : EStateM Failure σ α}
  {y : EStateM Failure τ β}

theorem pure (a : α) : Mirrors T φ (pure a) (pure (φ a)) := fun _ _ _ held => ⟨rfl, held⟩

theorem pure_of_eq {a : α} {b : β} (same : b = φ a) :
    Mirrors T φ (Pure.pure a) (Pure.pure b) := same ▸ .pure a

theorem throw {e e' : Failure} (moved : Failure.Moved T.place e e') :
    Mirrors T φ (throw e) (throw e') := fun _ _ _ held => ⟨moved, held⟩

/-- What follows is compared for corresponding values only, and only for what can be returned. -/
theorem bind_yields {f : α → EStateM Failure σ α'} {g : β → EStateM Failure τ β'}
    (first : Mirrors T φ x y) (rest : ∀ a, Yields x a → Mirrors T ψ (f a) (g (φ a))) :
    Mirrors T ψ (x >>= f) (y >>= g) := by
  intro i w w' held
  obtain ⟨a, middle, middle', ran, ran', held⟩ | ⟨e, e', middle, middle', failed, failed', agreed⟩ :=
    (first i w w' held).cases
  · rw [bind_of_ok ran, bind_of_ok ran']
    exact rest a ⟨w, middle, ran⟩ i middle middle' held
  · rw [bind_of_error failed, bind_of_error failed']
    exact agreed

theorem bind {f : α → EStateM Failure σ α'} {g : β → EStateM Failure τ β'}
    (first : Mirrors T φ x y) (rest : ∀ a, Mirrors T ψ (f a) (g (φ a))) :
    Mirrors T ψ (x >>= f) (y >>= g) := first.bind_yields fun a _ => rest a

theorem map {f : α → α'} {g : β → β'} (mirrors : Mirrors T φ x y)
    (same : ∀ a, g (φ a) = ψ (f a)) : Mirrors T ψ (f <$> x) (g <$> y) := by
  rw [map_eq_pure_bind, map_eq_pure_bind]
  refine mirrors.bind fun a => ?_
  rw [same]
  exact .pure _

theorem ite {c : Prop} [Decidable c] {x' : EStateM Failure σ α} {y' : EStateM Failure τ β}
    (yes : Mirrors T φ x y) (no : Mirrors T φ x' y') :
    Mirrors T φ (if c then x else x') (if c then y else y') := by
  split
  · exact yes
  · exact no

/-- A loop over a list mirrors a loop over corresponding elements. -/
theorem mapM {ρ : γ → γ'} {f : γ → EStateM Failure σ α} {g : γ' → EStateM Failure τ β}
    (each : ∀ c, Mirrors T φ (f c) (g (ρ c))) (cs : List γ) :
    Mirrors T (List.map φ) (cs.mapM f) ((cs.map ρ).mapM g) := by
  induction cs with
  | nil =>
    rw [List.map_nil, List.mapM_nil, List.mapM_nil]
    exact .pure []
  | cons c cs ih =>
    rw [List.map_cons, List.mapM_cons, List.mapM_cons]
    exact (each c).bind fun a => ih.bind fun as => .pure (a :: as)

theorem mapM_same {f : γ → EStateM Failure σ α} {g : γ → EStateM Failure τ α}
    (each : ∀ c, Mirrors T id (f c) (g c)) (cs : List γ) : Mirrors T id (cs.mapM f) (cs.mapM g) := by
  have all := mapM (ρ := id) (φ := id) each cs
  rwa [List.map_id_fun, List.map_id] at all

theorem forIn {f : γ → α → EStateM Failure σ (ForInStep α)}
    {g : γ → α → EStateM Failure τ (ForInStep α)} (each : ∀ c a, Mirrors T id (f c a) (g c a))
    (cs : List γ) (a : α) : Mirrors T id (forIn cs a f) (forIn cs a g) := by
  induction cs generalizing a with
  | nil =>
    rw [List.forIn_nil, List.forIn_nil]
    exact .pure a
  | cons c cs ih =>
    rw [List.forIn_cons, List.forIn_cons]
    refine (each c a).bind fun next => ?_
    cases next with
    | done a => exact .pure a
    | yield a => exact ih a

end Mirrors

/-- The computation with the loss of all weight caught. -/
def caught (x : EStateM Failure σ α) : EStateM Failure σ (Option α) := fun w =>
  match x w with
  | .ok a w' => .ok (some a) w'
  | .error .degenerate w' => .ok none w'
  | .error e w' => .error e w'

theorem Tie.Agree.caught {T : Tie ι σ τ} {i : ι} {φ : α → β} {x : EStateM Failure σ α}
    {y : EStateM Failure τ β} {w : σ} {w' : τ} (agree : T.Agree i φ (x w) (y w')) :
    T.Agree i (Option.map φ) (caught x w) (caught y w') := by
  unfold ProbCore.caught
  obtain ⟨a, middle, middle', ran, ran', held⟩ |
    ⟨e, e', middle, middle', failed, failed', moved, held⟩ := agree.cases
  · rw [ran, ran']
    exact ⟨rfl, held⟩
  · rw [failed, failed']
    cases moved with
    | positiveFactor x a => exact ⟨.positiveFactor x a, held⟩
    | same e =>
      cases e with
      | degenerate => exact ⟨rfl, held⟩
      | _ => exact ⟨.same _, held⟩

theorem Mirrors.caught {T : Tie ι σ τ} {φ : α → β} {x : EStateM Failure σ α}
    {y : EStateM Failure τ β} (mirrors : Mirrors T φ x y) :
    Mirrors T (Option.map φ) (caught x) (caught y) :=
  fun i w w' held => (mirrors i w w' held).caught

/-- The computation between two changes of the state, the second of which happens whatever came
of it. -/
def bracket (enter : σ → σ) (leave : σ → σ → σ) (x : EStateM Failure σ α) : EStateM Failure σ α :=
  fun w =>
    match x (enter w) with
    | .ok a w' => .ok a (leave w w')
    | .error e w' => .error e (leave w w')

theorem Tie.Agree.bracket {ι' : Type} {T : Tie ι σ τ} {T' : Tie ι' σ τ} {i : ι} {i' : ι'}
    {φ : α → β} {x : EStateM Failure σ α} {y : EStateM Failure τ β} {enter : σ → σ}
    {leave : σ → σ → σ} {enter' : τ → τ} {leave' : τ → τ → τ} {w : σ} {w' : τ}
    (agree : T.Agree i φ (x (enter w)) (y (enter' w'))) (place : T.place = T'.place)
    (left : ∀ {v v'}, T.holds i v v' → T'.holds i' (leave w v) (leave' w' v')) :
    T'.Agree i' φ (bracket enter leave x w) (bracket enter' leave' y w') := by
  unfold ProbCore.bracket
  obtain ⟨a, v, v', ran, ran', held⟩ | ⟨e, e', v, v', failed, failed', moved, held⟩ := agree.cases
  · rw [ran, ran']
    exact ⟨rfl, left held⟩
  · rw [failed, failed']
    exact ⟨place ▸ moved, left held⟩

/-- What mirrors inside mirrors from outside, where the states correspond again in the end. -/
theorem Mirrors.bracket_agree {ι' : Type} {T : Tie ι σ τ} {T' : Tie ι' σ τ} {i : ι} {i' : ι'}
    {φ : α → β} {x : EStateM Failure σ α} {y : EStateM Failure τ β} {enter : σ → σ}
    {leave : σ → σ → σ} {enter' : τ → τ} {leave' : τ → τ → τ} {w : σ} {w' : τ}
    (mirrors : Mirrors T φ x y) (place : T.place = T'.place)
    (entered : T.holds i (enter w) (enter' w'))
    (left : ∀ {v v'}, T.holds i v v' → T'.holds i' (leave w v) (leave' w' v')) :
    T'.Agree i' φ (bracket enter leave x w) (bracket enter' leave' y w') :=
  (mirrors i _ _ entered).bracket place left

/-- Two hosts whose answers correspond wherever their states do. -/
structure Tie.Serves (T : Tie ι σ τ) {D R : Type} [Host (EStateM Failure σ) D R]
    [Host (EStateM Failure τ) D R] : Prop where
  fail {α β : Type} {φ : α → β} {e e' : Failure} : Failure.Moved T.place e e' →
    Mirrors T φ (Host.fail e : EStateM Failure σ α) (Host.fail e' : EStateM Failure τ β)
  note {n : Notice} : n.placeless = true →
    Mirrors T id (Host.note n : EStateM Failure σ Unit) (Host.note n : EStateM Failure τ Unit)
  unlessDegenerate {α β : Type} {φ : α → β} {x : EStateM Failure σ α} {y : EStateM Failure τ β} :
    Mirrors T φ x y → Mirrors T (Option.map φ) (Host.unlessDegenerate x) (Host.unlessDegenerate y)
  nested {α β : Type} {φ : α → β} {x : EStateM Failure σ α} {y : EStateM Failure τ β} :
    Mirrors T φ x y → Mirrors T φ (Host.nested x) (Host.nested y)
  enumerable (d : D) : Host.enumerable (EStateM Failure τ) d = Host.enumerable (EStateM Failure σ) d
  support (d : D) : Mirrors T id (Host.support d : EStateM Failure σ _) (Host.support d)
  logDensity (d : D) (v : Value) :
    Mirrors T id (Host.logDensity d v : EStateM Failure σ R) (Host.logDensity d v)
  draw (d : D) : Mirrors T id (Host.draw d : EStateM Failure σ Value) (Host.draw d)
  logUniform :
    Mirrors T id (Host.logUniform : EStateM Failure σ R) (Host.logUniform : EStateM Failure τ R)
  offset : Mirrors T id (Host.offset : EStateM Failure σ R) (Host.offset : EStateM Failure τ R)
  indexBelow (n : Nat) :
    Mirrors T id (Host.indexBelow n : EStateM Failure σ Nat) (Host.indexBelow n)
  categorical (weights : List R) (n : Nat) :
    Mirrors T id (Host.categorical weights n : EStateM Failure σ (List Nat))
      (Host.categorical weights n)

namespace Tie.Serves

variable {T : Tie ι σ τ} {D R : Type} [Host (EStateM Failure σ) D R]
  [Host (EStateM Failure τ) D R]

theorem refuse (serves : T.Serves) {φ : α → β} (e : Failure) :
    Mirrors T φ (Host.fail e : EStateM Failure σ α) (Host.fail e : EStateM Failure τ β) :=
  serves.fail (.same e)

theorem lift (serves : T.Serves) (r : Except Failure α) :
    Mirrors T id (Host.lift r : EStateM Failure σ α) (Host.lift r : EStateM Failure τ α) := by
  cases r with
  | ok a => exact .pure a
  | error e => exact serves.refuse e

theorem accepts [Score R] (serves : T.Serves) (d : D) (v : Value) :
    Mirrors T id (Host.accepts d v : EStateM Failure σ Bool) (Host.accepts d v) := by
  unfold Host.accepts
  rw [serves.enumerable]
  exact .ite ((serves.support d).bind fun _ => .pure _)
    ((serves.logDensity d v).bind fun _ => .pure _)

end Tie.Serves

end ProbCore
