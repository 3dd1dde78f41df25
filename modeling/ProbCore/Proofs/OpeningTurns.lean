import ProbCore.Proofs.Yields
import ProbCore.Strategy.OpeningChain

/-! What the chain over openings can come to, step by step. It starts from an opening that the kernel found
and completed. A sweep proposes another opening, completes it and decides: it replaces all of a state or
nothing. -/

namespace ProbCore

open Kernel

namespace OpeningChain

variable {σ κ D R : Type} [Host (EStateM Failure σ) D R] [Score R]
  {resume : Resume (EStateM Failure σ) κ D R} {entry : κ} {s : Store} {fuel : Nat} {c : Config}

/-- One run of the inner filter from the opening of a state, which gave its estimate and its population. -/
structure Estimated (resume : Resume (EStateM Failure σ) κ D R) (fuel : Nat) (c : Config) (st : State κ D R)
    (out : Filter.Outcome κ D R) : Prop where
  ran : Yields (Filter.run resume fuel c.filter (List.replicate c.particles ⟨st.opening, Score.zero⟩)) out
  mass : st.logMass = st.opening.likelihood + out.logMass
  left : st.population = out.survivors

/-- What a sweep has at hand when it decides: the state that could be next, and the ratio. -/
structure Poses (resume : Resume (EStateM Failure σ) κ D R) (fuel : Nat) (c : Config) (st next : State κ D R)
    (ratio : R) : Prop where
  proposed : ∃ r, Yields (propose resume fuel st.opening) (some (next.opening, r)) ∧
    ratio = r + (next.logMass - st.logMass)
  ran : Yields (complete resume fuel c next.opening) (next.logMass, next.population)

/-- All that a sweep can come to. Without a proposal, without a survivor, or if the proposal is refused,
the state stays as it is. An accepted proposal comes with the estimate and the population of its own. -/
inductive Turn (resume : Resume (EStateM Failure σ) κ D R) (fuel : Nat) (c : Config) (st : State κ D R) :
    State κ D R → Bool → Prop where
  | unproposed (nothing : Yields (propose resume fuel st.opening) none) : Turn resume fuel c st st false
  | lost {opening r completed} (proposed : Yields (propose resume fuel st.opening) (some (opening, r)))
      (ran : Yields (Host.unlessDegenerate (complete resume fuel c opening)) completed)
      (none_left : ∀ result, completed = some result → result.2 = []) : Turn resume fuel c st st false
  | refused {next ratio u} (poses : Poses resume fuel c st next ratio) (some_left : next.population ≠ [])
      (uniform : Yields (Host.logUniform : EStateM Failure σ R) u) (above : Score.less u ratio = false) :
      Turn resume fuel c st st false
  | accepted {next ratio u} (poses : Poses resume fuel c st next ratio) (some_left : next.population ≠ [])
      (uniform : Yields (Host.logUniform : EStateM Failure σ R) u) (below : Score.less u ratio = true) :
      Turn resume fuel c st next true

variable [SoundHost σ D R] {st st' : State κ D R} {accepted : Bool} {t t' : Trace κ D R} {r Z : R}
  {population : List (Particle κ D R)}

/-- The value that is drawn is that of a member. -/
theorem drawValue_member {v : Value} (yields : Yields (drawValue population : EStateM Failure σ Value) v) :
    ∃ p ∈ population, v = p.trace.value?.getD .absent := by
  obtain ⟨indices, selected, yields⟩ := Yields.bind yields
  cases indices with
  | nil => exact yields.not_fail
  | cons i rest =>
    have inside := SoundHost.selection_inside selected i List.mem_cons_self
    rw [List.length_map] at inside
    refine ⟨_, List.getElem_mem inside, ?_⟩
    rw [yields.pure, List.getElem?_eq_getElem inside, Option.bind_some]

theorem complete_yields (yields : Yields (complete resume fuel c t) (Z, population)) :
    ∃ out, Estimated resume fuel c ⟨t, Z, population⟩ out := by
  obtain ⟨out, ran, yields⟩ := Yields.bind yields
  obtain ⟨rfl, rfl⟩ := Prod.mk.inj yields.pure
  exact ⟨out, SoundHost.nested_sound ran, rfl, rfl⟩

omit [SoundHost σ D R] in
/-- A proposal is the opening itself where it has no choices, and else regenerated up to its first factor. -/
theorem propose_cases (yields : Yields (propose resume fuel t) (some (t', r))) :
    t.choices = [] ∧ t' = t ∧ r = Score.zero ∨
      ∃ ratio, Yields (regenerate resume fuel t (some 1)) (some (t', ratio)) ∧
        r = ratio - (t'.likelihood - t.likelihood) := by
  unfold propose at yields
  split at yields
  next none_there =>
    cases yields.pure
    exact .inl ⟨List.isEmpty_iff.mp none_there, rfl, rfl⟩
  next =>
    obtain ⟨proposed, ran, yields⟩ := yields.bind
    cases proposed with
    | none => cases yields.pure
    | some proposal =>
      cases yields.pure
      exact .inr ⟨_, ran, rfl⟩

theorem startChain_yields (yields : Yields (startChain resume fuel c entry s) st) :
    Yields (findStart resume fuel entry s (some 1) c.startAttempts) st.opening ∧
      Yields (complete resume fuel c st.opening) (st.logMass, st.population) := by
  have tried {remaining attempt : Nat}
      (yields : Yields (startChain.go resume fuel c entry s remaining attempt) st) :
      Yields (findStart resume fuel entry s (some 1) c.startAttempts) st.opening ∧
        Yields (complete resume fuel c st.opening) (st.logMass, st.population) := by
    induction remaining generalizing attempt with
    | zero => exact yields.not_fail
    | succ remaining ih =>
      obtain ⟨opening, found, yields⟩ := Yields.bind yields
      obtain ⟨completed, ran, yields⟩ := yields.bind
      cases completed with
      | none =>
        obtain ⟨_, _, yields⟩ := Yields.bind yields
        exact ih yields
      | some result =>
        rw [yields.pure]
        exact ⟨found, SoundHost.unlessDegenerate_sound ran⟩
  exact tried yields

theorem sweep_turn (yields : Yields (sweep resume fuel c st) (st', accepted)) :
    Turn resume fuel c st st' accepted := by
  obtain ⟨proposed, ran, yields⟩ := Yields.bind yields
  cases proposed with
  | none =>
    cases yields.pure
    exact .unproposed ran
  | some proposal =>
    obtain ⟨opening, r⟩ := proposal
    obtain ⟨completed, inner, yields⟩ := Yields.bind yields
    dsimp only at yields
    split at yields
    next empty =>
      cases yields.pure
      refine .lost ran inner fun result left => ?_
      rw [left] at empty
      exact List.isEmpty_iff.mp empty
    next some_left =>
      cases completed with
      | none => exact absurd rfl some_left
      | some result =>
        have kept : result.2 ≠ [] := fun empty => some_left (List.isEmpty_iff.mpr empty)
        have poses : Poses resume fuel c st ⟨opening, result.1, result.2⟩ (r + (result.1 - st.logMass)) :=
          ⟨⟨r, ran, rfl⟩, SoundHost.unlessDegenerate_sound inner⟩
        obtain ⟨u, uniform, yields⟩ := yields.bind
        split at yields
        next below =>
          cases yields.pure
          exact .accepted poses kept uniform below
        next above =>
          cases yields.pure
          exact .refused poses kept uniform (by simpa using above)

end OpeningChain

end ProbCore
