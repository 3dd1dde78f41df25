import Mathlib.Order.Filter.Map
import ProbCore.Proofs.Mirroring

/-! A computation with an allowance of fuel beside one that may give up. The first tracks the second
when, with all large enough allowances, it mirrors what the second comes to. Of a second that has
given up nothing is said. -/

namespace ProbCore

/-- Which allowances are large enough, and which failures say that a computation gave up. -/
structure Patience (J : Type) where
  enough : Filter J
  lost : Failure → Prop

variable {J ι σ τ : Type} {α β α' β' γ γ' : Type}

def Tracks (P : Patience J) (T : Tie ι σ τ) (φ : α → β) (x : J → EStateM Failure σ α)
    (y : EStateM Failure τ β) : Prop :=
  ∀ i w w', T.holds i w w' →
    (∃ e v, P.lost e ∧ y w' = .error e v) ∨
      ∃ r, (∀ᶠ j in P.enough, x j w = r) ∧ T.Agree i φ r (y w')

theorem Mirrors.tracks {P : Patience J} {T : Tie ι σ τ} {φ : α → β} {x : EStateM Failure σ α}
    {y : EStateM Failure τ β} (mirrors : Mirrors T φ x y) : Tracks P T φ (fun _ => x) y :=
  fun i w w' held => .inr ⟨x w, .of_forall fun _ => rfl, mirrors i w w' held⟩

namespace Tracks

variable {P : Patience J} {T : Tie ι σ τ} {φ : α → β} {ψ : α' → β'}
  {x : J → EStateM Failure σ α} {y : EStateM Failure τ β}

theorem pure (a : α) : Tracks P T φ (fun _ => Pure.pure a) (Pure.pure (φ a)) :=
  (Mirrors.pure a).tracks

theorem pure_of_eq {a : α} {b : β} (same : b = φ a) :
    Tracks P T φ (fun _ => Pure.pure a) (Pure.pure b) := (Mirrors.pure_of_eq same).tracks

/-- Nothing is said of what gives up. -/
theorem lost {e : Failure} (gone : P.lost e) : Tracks P T φ x (throw e) :=
  fun _ _ w' _ => .inl ⟨e, w', gone, rfl⟩

/-- Only large enough allowances matter. -/
theorem of_eventually {x' : J → EStateM Failure σ α} (tracks : Tracks P T φ x y)
    (same : ∀ᶠ j in P.enough, x' j = x j) : Tracks P T φ x' y := by
  intro i w w' held
  obtain gone | ⟨r, ends, agree⟩ := tracks i w w' held
  · exact .inl gone
  · refine .inr ⟨r, ?_, agree⟩
    filter_upwards [same, ends] with j same ends
    rw [same, ends]

theorem bind {f : J → α → EStateM Failure σ α'} {g : β → EStateM Failure τ β'}
    (first : Tracks P T φ x y) (rest : ∀ a, Tracks P T ψ (fun j => f j a) (g (φ a))) :
    Tracks P T ψ (fun j => x j >>= f j) (y >>= g) := by
  intro i w w' held
  obtain ⟨e, v, gone, failed⟩ | ⟨r, ends, agree⟩ := first i w w' held
  · exact .inl ⟨e, v, gone, bind_of_error failed⟩
  obtain ⟨a, middle, middle', rfl, ran, held⟩ | ⟨e, e', middle, middle', rfl, failed, agreed⟩ :=
    agree.cases
  · rw [bind_of_ok ran]
    obtain gone | ⟨r, goes_on, agree⟩ := rest a i middle middle' held
    · exact .inl gone
    · refine .inr ⟨r, ?_, agree⟩
      filter_upwards [ends, goes_on] with j ends goes_on
      rw [bind_of_ok ends, goes_on]
  · rw [bind_of_error failed]
    refine .inr ⟨.error e middle, ?_, agreed⟩
    filter_upwards [ends] with j ends
    exact bind_of_error ends

theorem ite {c : Prop} [Decidable c] {x' : J → EStateM Failure σ α} {y' : EStateM Failure τ β}
    (yes : Tracks P T φ x y) (no : Tracks P T φ x' y') :
    Tracks P T φ (fun j => if c then x j else x' j) (if c then y else y') := by
  by_cases holds : c
  · simpa only [if_pos holds] using yes
  · simpa only [if_neg holds] using no

/-- A loop over a list tracks a loop over corresponding elements. -/
theorem mapM {ρ : γ → γ'} {f : J → γ → EStateM Failure σ α} {g : γ' → EStateM Failure τ β}
    (each : ∀ c, Tracks P T φ (fun j => f j c) (g (ρ c))) (cs : List γ) :
    Tracks P T (List.map φ) (fun j => cs.mapM (f j)) ((cs.map ρ).mapM g) := by
  induction cs with
  | nil =>
    simp only [List.map_nil, List.mapM_nil]
    exact .pure []
  | cons c cs ih =>
    simp only [List.map_cons, List.mapM_cons]
    exact (each c).bind fun a => ih.bind fun as => .pure (a :: as)

/-- The loss of all weight is caught on both sides, as it is no sign of giving up. -/
theorem caught (kept : ¬ P.lost .degenerate) (tracks : Tracks P T φ x y) :
    Tracks P T (Option.map φ) (fun j => caught (x j)) (caught y) := by
  intro i w w' held
  obtain ⟨e, v, gone, failed⟩ | ⟨r, ends, agree⟩ := tracks i w w' held
  · refine .inl ⟨e, v, gone, ?_⟩
    unfold ProbCore.caught
    rw [failed]
    cases e with
    | degenerate => exact absurd gone kept
    | _ => rfl
  · refine .inr ⟨ProbCore.caught (fun _ => r) w, ?_, agree.caught (x := fun _ => r)⟩
    filter_upwards [ends] with j ends
    unfold ProbCore.caught
    rw [ends]

/-- What is tracked inside is tracked from outside, where the states correspond again in the end. -/
theorem bracket {ι' : Type} {T' : Tie ι' σ τ} {enter : σ → σ} {leave : σ → σ → σ} {enter' : τ → τ}
    {leave' : τ → τ → τ} (tracks : Tracks P T φ x y) (place : T.place = T'.place)
    (brackets : ∀ i' w w', T'.holds i' w w' → ∃ i, T.holds i (enter w) (enter' w') ∧
      ∀ {v v'}, T.holds i v v' → T'.holds i' (leave w v) (leave' w' v')) :
    Tracks P T' φ (fun j => bracket enter leave (x j)) (bracket enter' leave' y) := by
  intro i' w w' held
  obtain ⟨i, entered, left⟩ := brackets i' w w' held
  obtain ⟨e, v, gone, failed⟩ | ⟨r, ends, agree⟩ := tracks i _ _ entered
  · refine .inl ⟨e, leave' w' v, gone, ?_⟩
    unfold ProbCore.bracket
    rw [failed]
  · refine .inr ⟨ProbCore.bracket enter leave (fun _ => r) w, ?_,
      agree.bracket (x := fun _ => r) place left⟩
    filter_upwards [ends] with j ends
    unfold ProbCore.bracket
    rw [ends]

end Tracks

/-- Two hosts that also keep what is tracked under the combinators that they offer. -/
structure Tie.Sustains (T : Tie ι σ τ) (P : Patience J) {D R : Type} [Host (EStateM Failure σ) D R]
    [Host (EStateM Failure τ) D R] : Prop where
  serves : T.Serves (D := D) (R := R)
  lost {α β : Type} {φ : α → β} {x : J → EStateM Failure σ α} {e : Failure} :
    P.lost e → Tracks P T φ x (Host.fail e : EStateM Failure τ β)
  unlessDegenerate {α β : Type} {φ : α → β} {x : J → EStateM Failure σ α} {y : EStateM Failure τ β} :
    Tracks P T φ x y →
      Tracks P T (Option.map φ) (fun j => Host.unlessDegenerate (x j)) (Host.unlessDegenerate y)
  nested {α β : Type} {φ : α → β} {x : J → EStateM Failure σ α} {y : EStateM Failure τ β} :
    Tracks P T φ x y → Tracks P T φ (fun j => Host.nested (x j)) (Host.nested y)

/-- A single allowance, with which nothing gives up. -/
def Patience.single : Patience Unit := ⟨Pure.pure (), fun _ => False⟩

theorem tracks_single {T : Tie ι σ τ} {φ : α → β} {x : Unit → EStateM Failure σ α}
    {y : EStateM Failure τ β} : Tracks .single T φ x y ↔ Mirrors T φ (x ()) y := by
  refine ⟨fun tracks i w w' held => ?_, fun mirrors => mirrors.tracks⟩
  obtain ⟨_, _, gone, _⟩ | ⟨r, ends, agree⟩ := tracks i w w' held
  · exact gone.elim
  · rwa [Filter.eventually_pure.mp ends]

theorem Tie.Serves.sustains {T : Tie ι σ τ} {D R : Type} [Host (EStateM Failure σ) D R]
    [Host (EStateM Failure τ) D R] (serves : T.Serves (D := D) (R := R)) :
    T.Sustains .single (D := D) (R := R) where
  serves := serves
  lost gone := gone.elim
  unlessDegenerate tracks := tracks_single.mpr (serves.unlessDegenerate (tracks_single.mp tracks))
  nested tracks := tracks_single.mpr (serves.nested (tracks_single.mp tracks))

end ProbCore
