import ProbCore.Proofs.Lockstep
import ProbCore.Proofs.RatioAccounting

/-! What the score of an execution has beyond its prior. Choices count in both alike, so that the
likelihood of a trace is that of its factors alone, as long as what cancels is a number. Nothing is
asked of a program for the account; where it tolerates no infinite factor, and its choices have finite
densities, all likelihoods are numbers. -/

namespace ProbCore

namespace Exact

theorem sum_reals (xs : List ℝ) : (xs.map Exact.real).sum = .real xs.sum := by
  induction xs with
  | nil => rfl
  | cons x xs ih => rw [List.map_cons, List.sum_cons, ih, real_add, List.sum_cons]

theorem exists_reals {xs : List Exact} (reals : ∀ x ∈ xs, x.IsReal) : ∃ ys : List ℝ, xs = ys.map Exact.real := by
  induction xs with
  | nil => exact ⟨[], rfl⟩
  | cons x xs ih =>
    obtain ⟨⟨y, rfl⟩, rest⟩ := List.forall_mem_cons.mp reals
    obtain ⟨ys, rfl⟩ := ih rest
    exact ⟨y :: ys, rfl⟩

/-- Adding a prior and taking it away again. -/
theorem add_sub_real (prior : Exact) (x : ℝ) :
    prior + .real x - prior = .real x ∨ prior + .real x - prior = .nan := by
  cases prior with
  | real p =>
    left
    rw [real_add, real_sub, add_sub_cancel_left]
  | negInf | posInf | nan => exact .inr rfl

theorem add_sub_posInf (prior : Exact) :
    prior + .posInf - prior = .posInf ∨ prior + .posInf - prior = .nan := by
  cases prior with
  | real p => exact .inl rfl
  | negInf | posInf | nan => exact .inr rfl

end Exact

/-- Factors that are tolerated sum up to a number, unless one of them is infinitely likely. -/
theorem Tolerated.sum_cases {xs : List Exact} (tolerated : Tolerated xs) : xs.sum.IsReal ∨ xs.sum = .posInf := by
  induction xs with
  | nil => exact .inl ⟨0, rfl⟩
  | cons x xs ih =>
    obtain ⟨fine, rest⟩ := List.forall_mem_cons.mp tolerated
    rw [List.sum_cons]
    cases x with
    | real x =>
      rcases ih rest with ⟨y, same⟩ | same
      · exact .inl ⟨x + y, by rw [same, Exact.real_add]⟩
      · exact .inr (by rw [same]; rfl)
    | posInf =>
      rcases ih rest with ⟨y, same⟩ | same
      · exact .inr (by rw [same]; rfl)
      · exact .inr (by rw [same]; rfl)
    | negInf | nan => cases fine

namespace Kernel

section

variable {σ κ D R : Type} [Host (EStateM Failure σ) D R] [Score R]

/-- Values that are drawn, with some mass. -/
def Drawn (σ : Type) {D R : Type} [Host (EStateM Failure σ) D R] [Score R] (d : D) (v : Value) : Prop :=
  Yields (Host.draw d : EStateM Failure σ Value) v ∧ HasMass σ d v

theorem drawn_chooses {resume : Resume (EStateM Failure σ) κ D R} {entry : κ} {s : Store} :
    Chooses False resume (Drawn σ) entry s := by
  intro cs xs s' k a d v _ offered mass
  rcases offered with drawn | ⟨_, ⟨moving, _⟩, _⟩
  · exact ⟨drawn, mass⟩
  · exact moving.elim

end

section

variable {σ κ D : Type} [Host (EStateM Failure σ) D Exact] {resume : Resume (EStateM Failure σ) κ D Exact}
  {chosen : D → Value → Prop} {entry : κ} {s : Store} {moving : Prop}

/-- No factor that executions come to is infinitely likely. -/
def Moderate (resume : Resume (EStateM Failure σ) κ D Exact) (chosen : D → Value → Prop) (entry : κ)
    (s : Store) : Prop :=
  ∀ cs xs s' k a x, Arrives resume chosen entry s cs xs (.factor s' k a x) → x ≠ .posInf

/-- The account of an execution that has absorbed these factors: they are what its score has beyond
its prior, whatever its choices weigh. -/
structure Absorbs (resume : Resume (EStateM Failure σ) κ D Exact) (chosen : D → Value → Prop) (entry : κ)
    (s : Store) (xs : List Exact) (cs : List (Choice κ D Exact)) (T : Totals Exact) (k : κ) (s' : Store)
    (v : Value) : Prop where
  reaches : Reaches resume chosen entry s (cs.map Choice.told) xs k s' v
  tolerated : Tolerated xs
  score : T.score = T.prior + xs.sum
  count : T.factors = xs.length

def absorbed (chooses : Chooses moving resume chosen entry s) : Invariant moving resume where
  holds cs T k s' v := ∃ xs, Absorbs resume chosen entry s xs cs T k s' v
  fair := Met resume chosen entry s
  choose {cs T k k' s₁ s₂ u v a d lp} held goes offered weighs possible := by
    obtain ⟨xs, reaches, tolerated, score, count⟩ := held
    have arrives : Arrives resume chosen entry s _ xs (.sample s₂ k' a d) := ⟨k, s₁, u, reaches, goes⟩
    have choice := chooses _ xs s₂ k' a d v arrives offered ⟨lp, weighs, possible⟩
    refine ⟨⟨choice, _, xs, arrives⟩, xs, ?_, tolerated, ?_, count⟩
    · rw [List.map_append]
      exact reaches.choose goes choice
    · change T.score + lp = T.prior + lp + _
      rw [score]
      exact add_right_comm T.prior _ lp
  absorb {cs T k k' s₁ s₂ u a x} held goes fine := by
    obtain ⟨xs, reaches, tolerated, score, count⟩ := held
    refine ⟨xs ++ [x], reaches.absorb goes, tolerated.concat fine, ?_, ?_⟩
    · change T.score + x = T.prior + _
      rw [score, add_assoc, List.sum_append, List.sum_singleton]
    · change T.factors + 1 = _
      rw [count, List.length_append, List.length_singleton]

theorem takes_chooses : Chooses moving resume (Filter.Takes σ) entry s := by
  intro cs xs s' k a d v _ offered mass
  exact ⟨offered.choosable, mass⟩

theorem absorbed_begins (chooses : Chooses moving resume chosen entry s) :
    (absorbed chooses).holds [] .zero entry s .absent := by
  refine ⟨[], .start, nofun, ?_, rfl⟩
  change (Score.zero : Exact) = Score.zero + 0
  rw [add_zero]

omit [Host (EStateM Failure σ) D Exact] in
theorem Absorbs.reals (moderate : Moderate resume chosen entry s) {xs : List Exact} {cs : List (Choice κ D Exact)}
    {T : Totals Exact} {k : κ} {s' : Store} {v : Value} (absorbs : Absorbs resume chosen entry s xs cs T k s' v) :
    ∀ x ∈ xs, x.IsReal := by
  intro x member
  obtain ⟨before, after, parts⟩ := List.append_of_mem member
  obtain ⟨cs, k, s₁, u, k', s₂, a, reaches, goes⟩ := absorbs.reaches.factor_before parts
  exact Filter.real_of_tolerable (absorbs.tolerated x member) (moderate _ _ _ _ _ _ ⟨k, s₁, u, reaches, goes⟩)

/-- No factor is infinitely likely, and the log densities of choices are finite or impossible. -/
structure Tempered (resume : Resume (EStateM Failure σ) κ D Exact) (chosen : D → Value → Prop) (entry : κ)
    (s : Store) : Prop where
  moderate : Moderate resume chosen entry s
  dense {cs : List (Address × D × Value)} {xs : List Exact} {s' : Store} {k : κ} {a : Address} {d : D}
      {v : Value} {lp : Exact} :
    Arrives resume chosen entry s cs xs (.sample s' k a d) → chosen d v →
      Yields (Host.logDensity d v : EStateM Failure σ Exact) lp → lp.IsReal ∨ lp = .negInf

/-- With finite densities the prior is a number too. -/
def numbered (chooses : Chooses moving resume chosen entry s) (tempered : Tempered resume chosen entry s) :
    Invariant moving resume where
  holds cs T k s' v := (absorbed chooses).holds cs T k s' v ∧ T.prior.IsReal
  fair := Met resume chosen entry s
  choose {cs T k k' s₁ s₂ u v a d lp} held goes offered weighs possible := by
    obtain ⟨account, p, prior⟩ := held
    obtain ⟨met, kept⟩ := (absorbed chooses).choose account goes offered weighs possible
    obtain ⟨xs, absorbs⟩ := account
    have dense := tempered.dense ⟨k, s₁, u, absorbs.reaches, goes⟩ met.1 weighs
    obtain ⟨l, rfl⟩ := Filter.real_of_possible possible dense
    refine ⟨met, kept, p + l, ?_⟩
    change T.prior + .real l = _
    rw [prior, Exact.real_add]
  absorb held goes fine := ⟨(absorbed chooses).absorb held.1 goes fine, held.2⟩

variable [SoundHost σ D Exact] {t : Trace κ D Exact}

/-- Every trace that the kernel makes has such an account. -/
theorem Made.absorbs (chooses : Chooses moving resume chosen entry s) (made : Made moving resume entry s t) :
    ∃ xs k s' v, Absorbs resume chosen entry s xs (t.choices) t.totals k s' v := by
  have closes := ((absorbed chooses).upholds_made (absorbed_begins chooses) made).closes
  cases ending : t.ending with
  | done v =>
    obtain ⟨k, s', u, ⟨xs, absorbs⟩, _⟩ := closes.leads ending
    exact ⟨xs, k, s', u, absorbs⟩
  | suspended k =>
    obtain ⟨xs, absorbs⟩ := closes.holds ending
    exact ⟨xs, k, _, _, absorbs⟩

/-- A likelihood is a number, unless a factor is infinitely likely or a prior is no number. -/
theorem Made.likelihood_cases (chooses : Chooses moving resume chosen entry s)
    (made : Made moving resume entry s t) :
    t.likelihood.IsReal ∨ t.likelihood = .nan ∨ t.likelihood = .posInf ∧ t.score = t.prior + .posInf := by
  obtain ⟨xs, k, s', v, absorbs⟩ := made.absorbs chooses
  have score : t.score = t.prior + xs.sum := absorbs.score
  rw [Trace.likelihood, score]
  rcases absorbs.tolerated.sum_cases with ⟨x, same⟩ | same
  · rw [same]
    rcases Exact.add_sub_real t.prior x with real | nan
    · exact .inl ⟨x, real⟩
    · exact .inr (.inl nan)
  · rw [same]
    rcases Exact.add_sub_posInf t.prior with infinite | nan
    · exact .inr (.inr ⟨infinite, rfl⟩)
    · exact .inr (.inl nan)

theorem Made.likelihood_moderate (chooses : Chooses moving resume chosen entry s)
    (moderate : Moderate resume chosen entry s) (made : Made moving resume entry s t) :
    t.likelihood.IsReal ∨ t.likelihood = .nan := by
  obtain ⟨xs, k, s', v, absorbs⟩ := made.absorbs chooses
  obtain ⟨ys, rfl⟩ := Exact.exists_reals (absorbs.reals moderate)
  have score : t.score = t.prior + (ys.map Exact.real).sum := absorbs.score
  rw [Trace.likelihood, score, Exact.sum_reals]
  rcases Exact.add_sub_real t.prior ys.sum with real | nan
  · exact .inl ⟨ys.sum, real⟩
  · exact .inr nan

theorem Made.prior_real (chooses : Chooses moving resume chosen entry s)
    (tempered : Tempered resume chosen entry s) (made : Made moving resume entry s t) : t.prior.IsReal := by
  have begins : (numbered chooses tempered).holds [] .zero entry s .absent :=
    ⟨absorbed_begins chooses, 0, Exact.zero_eq⟩
  have closes := ((numbered chooses tempered).upholds_made begins made).closes
  cases ending : t.ending with
  | done v =>
    obtain ⟨_, _, _, ⟨_, prior⟩, _⟩ := closes.leads ending
    exact prior
  | suspended k => exact (closes.holds ending).2

theorem Made.likelihood_real (chooses : Chooses moving resume chosen entry s)
    (tempered : Tempered resume chosen entry s) (made : Made moving resume entry s t) : t.likelihood.IsReal := by
  obtain ⟨xs, k, s', v, absorbs⟩ := made.absorbs chooses
  obtain ⟨ys, rfl⟩ := Exact.exists_reals (absorbs.reals tempered.moderate)
  obtain ⟨p, prior⟩ := made.prior_real chooses tempered
  have score : t.score = t.prior + (ys.map Exact.real).sum := absorbs.score
  refine ⟨ys.sum, ?_⟩
  rw [Trace.likelihood, score, prior, Exact.sum_reals, Exact.real_add, Exact.real_sub, add_sub_cancel_left]

end

end Kernel

end ProbCore
