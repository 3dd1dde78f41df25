import ProbCore.Proofs.KernelOutcomes

/-! Executions of any program on any host: where they can stand, what they have absorbed until
there, and what they return. Nothing is asked of the program, which may ask its host for
anything between its choices and factors. -/

namespace ProbCore

variable {σ κ D R : Type}

/-- The choices made and the factors absorbed by an execution up to a rest that is about to be
resumed. Choices take values as `chosen` allows. -/
inductive Reaches (resume : Resume (EStateM Failure σ) κ D R) (chosen : D → Value → Prop) (entry : κ)
    (start : Store) : List (Address × D × Value) → List R → κ → Store → Value → Prop where
  | start : Reaches resume chosen entry start [] [] entry start .absent
  | choose {cs xs k k' s s' u v a d} (before : Reaches resume chosen entry start cs xs k s u)
      (goes : Yields (resume k s u) (.sample s' k' a d)) (choice : chosen d v) :
      Reaches resume chosen entry start (cs ++ [(a, d, v)]) xs k' s' v
  | absorb {cs xs k k' s s' u a x} (before : Reaches resume chosen entry start cs xs k s u)
      (goes : Yields (resume k s u) (.factor s' k' a x)) :
      Reaches resume chosen entry start cs (xs ++ [x]) k' s' .absent

/-- The choices and factors of an execution up to a step that it comes to. -/
def Arrives (resume : Resume (EStateM Failure σ) κ D R) (chosen : D → Value → Prop) (entry : κ)
    (start : Store) (cs : List (Address × D × Value)) (xs : List R) (step : Step κ D R) : Prop :=
  ∃ k s u, Reaches resume chosen entry start cs xs k s u ∧ Yields (resume k s u) step

/-- An execution came to each factor that it has absorbed. -/
theorem Reaches.factor_before {resume : Resume (EStateM Failure σ) κ D R} {chosen : D → Value → Prop}
    {entry : κ} {start : Store} {cs : List (Address × D × Value)} {xs ys zs : List R} {x : R} {k : κ}
    {s : Store} {u : Value} (reaches : Reaches resume chosen entry start cs xs k s u)
    (absorbed : xs = ys ++ x :: zs) :
    ∃ cs k s u k' s' a, Reaches resume chosen entry start cs ys k s u ∧
      Yields (resume k s u) (.factor s' k' a x) := by
  induction reaches generalizing zs with
  | start => simp at absorbed
  | choose before goes choice ih => exact ih absorbed
  | @absorb cs xs k k' s s' u a y before goes ih =>
    rcases List.eq_nil_or_concat zs with rfl | ⟨rest, last, rfl⟩
    · obtain ⟨rfl, same⟩ := List.append_inj' absorbed rfl
      cases same
      exact ⟨cs, k, s, u, k', s', a, before, goes⟩
    · rw [List.concat_eq_append, ← List.cons_append, ← List.append_assoc] at absorbed
      exact ih (List.append_inj' absorbed rfl).1

/-- The choices and factors of a complete execution, with what it returns. -/
def Executes (resume : Resume (EStateM Failure σ) κ D R) (chosen : D → Value → Prop) (entry : κ)
    (start : Store) (cs : List (Address × D × Value)) (xs : List R) (v : Value) : Prop :=
  ∃ s, Arrives resume chosen entry start cs xs (.exit s v)

/-- What was chosen, from where, and at which address. -/
def Choice.told (c : Choice κ D R) : Address × D × Value := (c.address, c.dist, c.value)

/-- A value that a strategy may give to a choice: one that is drawn or that could have been. -/
def Choosable (σ : Type) {D R : Type} [Host (EStateM Failure σ) D R] [Score R] (d : D) (v : Value) : Prop :=
  Yields (Host.draw d : EStateM Failure σ Value) v ∨ Yields (Host.accepts d v : EStateM Failure σ Bool) true

def HasMass (σ : Type) {D R : Type} [Host (EStateM Failure σ) D R] [Score R] (d : D) (v : Value) : Prop :=
  ∃ lp, Yields (Host.logDensity d v : EStateM Failure σ R) lp ∧ Score.isImpossible lp = false

theorem Kernel.Offered.choosable [Host (EStateM Failure σ) D R] [Score R]
    {olds : Choice κ D R → Prop} {a : Address} {d : D} {v : Value}
    (offered : Kernel.Offered σ olds a d v) : Choosable σ d v := by
  rcases offered with drawn | ⟨_, _, _, _, accepted⟩
  · exact .inl drawn
  · exact .inr accepted

/-- Nothing impossible was absorbed, and nothing that is no number. -/
def Tolerated [Score R] (xs : List R) : Prop := ∀ x ∈ xs, Kernel.tolerable x = true

theorem Tolerated.concat [Score R] {xs : List R} {x : R} (tolerated : Tolerated xs)
    (fine : Kernel.tolerable x = true) : Tolerated (xs ++ [x]) := by
  intro y member
  rcases List.mem_append.mp member with before | last
  · exact tolerated y before
  · obtain rfl := List.mem_singleton.mp last
    exact fine

section

variable [Host (EStateM Failure σ) D R] [Score R] {resume : Resume (EStateM Failure σ) κ D R}
  {chosen : D → Value → Prop} {entry : κ} {s : Store}

/-- Choices that executions come to, with a value that they may take. -/
def Met (resume : Resume (EStateM Failure σ) κ D R) (chosen : D → Value → Prop) (entry : κ) (s : Store)
    (c : Choice κ D R) : Prop :=
  chosen c.dist c.value ∧
    ∃ cs xs, Arrives resume chosen entry s cs xs (.sample c.store c.k c.address c.dist)

/-- All that the kernel gives to the choices of executions is chosen: what is drawn for them, and
what they keep from others where traces move. -/
def Kernel.Chooses (moving : Prop) (resume : Resume (EStateM Failure σ) κ D R)
    (chosen : D → Value → Prop) (entry : κ) (s : Store) : Prop :=
  ∀ cs xs s' k a d v, Arrives resume chosen entry s cs xs (.sample s' k a d) →
    Offered σ (fun c => moving ∧ Met resume chosen entry s c) a d v → HasMass σ d v → chosen d v

variable {moving : Prop}

/-- What the kernel lets an execution absorb is tolerated. -/
def Kernel.tolerant (chooses : Chooses moving resume chosen entry s) : Invariant moving resume where
  holds cs _ k s' v := ∃ xs, Reaches resume chosen entry s (cs.map Choice.told) xs k s' v ∧ Tolerated xs
  fair := Met resume chosen entry s
  choose {cs T k k' s₁ s₂ u v a d lp} held goes offered weighs possible := by
    obtain ⟨xs, reaches, tolerated⟩ := held
    have arrives : Arrives resume chosen entry s _ xs (.sample s₂ k' a d) := ⟨k, s₁, u, reaches, goes⟩
    have choice := chooses _ xs s₂ k' a d v arrives offered ⟨lp, weighs, possible⟩
    refine ⟨⟨choice, _, xs, arrives⟩, xs, ?_, tolerated⟩
    rw [List.map_append]
    exact reaches.choose goes choice
  absorb {cs T k k' s₁ s₂ u a x} held goes fine := by
    obtain ⟨xs, reaches, tolerated⟩ := held
    exact ⟨xs ++ [x], reaches.absorb goes, tolerated.concat fine⟩

/-- A complete trace is that of an execution which absorbed only what is tolerated. -/
theorem Kernel.Made.executes [SoundHost σ D R] (chooses : Chooses moving resume chosen entry s)
    {t : Trace κ D R} {v : Value} (made : Made moving resume entry s t) (ending : t.ending = .done v) :
    ∃ xs, Executes resume chosen entry s (t.choices.map Choice.told) xs v ∧ Tolerated xs := by
  have upholds := (tolerant chooses).upholds_made ⟨[], .start, nofun⟩ made
  obtain ⟨k, s', u, ⟨xs, reaches, tolerated⟩, goes⟩ := upholds.closes.leads ending
  exact ⟨xs, ⟨t.store, k, s', u, reaches, goes⟩, tolerated⟩

end

end ProbCore
