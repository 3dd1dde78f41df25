import ProbCore.Strategy.Trace
import ProbCore.Proofs.PlainProgram

/-! The runs of a program, whatever strategy makes its choices. A run is a list of choices and
factors with the totals before and after them, from a step to a final value or to a factor at
which it is suspended. It can be cut at any choice and taken up again there with another
value. -/

namespace ProbCore

/-- What a run absorbs, in order. -/
inductive Event (κ D R : Type) where
  | choice (c : Choice κ D R)
  | factor (x : R)

namespace Event

variable {κ D R : Type}

def choice? : Event κ D R → Option (Choice κ D R)
  | choice c => some c
  | factor _ => none

def factor? : Event κ D R → Option R
  | choice _ => none
  | factor x => some x

def choices (es : List (Event κ D R)) : List (Choice κ D R) := es.filterMap choice?

def factors (es : List (Event κ D R)) : List R := es.filterMap factor?

@[simp] theorem choices_nil : choices ([] : List (Event κ D R)) = [] := rfl
@[simp] theorem choices_choice (c : Choice κ D R) (es : List (Event κ D R)) :
    choices (choice c :: es) = c :: choices es := rfl
@[simp] theorem choices_factor (x : R) (es : List (Event κ D R)) :
    choices (factor x :: es) = choices es := rfl
@[simp] theorem choices_append (es fs : List (Event κ D R)) :
    choices (es ++ fs) = choices es ++ choices fs := List.filterMap_append

@[simp] theorem factors_nil : factors ([] : List (Event κ D R)) = [] := rfl
@[simp] theorem factors_choice (c : Choice κ D R) (es : List (Event κ D R)) :
    factors (choice c :: es) = factors es := rfl
@[simp] theorem factors_factor (x : R) (es : List (Event κ D R)) :
    factors (factor x :: es) = x :: factors es := rfl

theorem mem_choices {es : List (Event κ D R)} {c : Choice κ D R} :
    c ∈ choices es ↔ choice c ∈ es := by
  rw [choices, List.mem_filterMap]
  constructor
  · rintro ⟨e, member, same⟩
    cases e with
    | choice b =>
      cases same
      exact member
    | factor x => cases same
  · exact fun member => ⟨_, member, rfl⟩

theorem split_at_choice {es : List (Event κ D R)} {before after : List (Choice κ D R)}
    {c : Choice κ D R} (same : choices es = before ++ c :: after) :
    ∃ fs gs, es = fs ++ choice c :: gs ∧ choices fs = before ∧ choices gs = after := by
  induction es generalizing before with
  | nil => simp at same
  | cons e es ih =>
    cases e with
    | factor x =>
      obtain ⟨fs, gs, rfl, left, right⟩ := ih same
      exact ⟨factor x :: fs, gs, rfl, left, right⟩
    | choice b =>
      cases before with
      | nil =>
        obtain ⟨rfl, rfl⟩ := List.cons.inj same
        exact ⟨[], es, rfl, rfl, rfl⟩
      | cons first before =>
        obtain ⟨rfl, rest⟩ := List.cons.inj same
        obtain ⟨fs, gs, rfl, left, right⟩ := ih rest
        exact ⟨choice b :: fs, gs, rfl, by rw [choices_choice, left], right⟩

end Event

/-- Running totals: the score of choices and factors, the prior of the choices alone, and the
number of factors. -/
structure Totals (R : Type) where
  score : R
  prior : R
  factors : Nat

namespace Totals

variable {κ D R : Type} [Score R]

def zero : Totals R := ⟨Score.zero, Score.zero, 0⟩

def choose (T : Totals R) (lp : R) : Totals R := { T with score := T.score + lp, prior := T.prior + lp }

def absorb (T : Totals R) (x : R) : Totals R :=
  { T with score := T.score + x, factors := T.factors + 1 }

/-- The trace of a run from the start with these choices, ended like this. -/
def trace (T : Totals R) (cs : List (Choice κ D R)) (s : Store) (e : Ending κ) : Trace κ D R :=
  ⟨cs, T.score, T.prior, T.factors, s, e⟩

end Totals

namespace Choice

variable {κ D R : Type}

def totals (c : Choice κ D R) : Totals R := ⟨c.score, c.prior, c.factors⟩

def redrawn (c : Choice κ D R) (v : Value) (lp : R) : Choice κ D R :=
  { c with value := v, logDensity := lp }

end Choice

section

variable {κ D R : Type} [Score R]

/-- From a step and its totals, the program absorbs these events, and ends like this. -/
inductive Runs (laws : Densities D R) (P : PlainProgram κ D R) :
    Totals R → Step κ D R → List (Event κ D R) → Totals R → Store → Ending κ → Prop where
  | exit {T s v} : Runs laws P T (.exit s v) [] T s (.done v)
  | suspend {T s k a x} : Runs laws P T (.factor s k a x) [.factor x] (T.absorb x) s (.suspended k)
  | factor {T T' s s' k a x step es e} (goes : P.next k s .absent = .ok step)
      (runs : Runs laws P (T.absorb x) step es T' s' e) :
      Runs laws P T (.factor s k a x) (.factor x :: es) T' s' e
  | choice {T T' s s' k a d v lp step es e} (weighs : laws.logDensity d v = .ok lp)
      (goes : P.next k s v = .ok step) (runs : Runs laws P (T.choose lp) step es T' s' e) :
      Runs laws P T (.sample s k a d)
        (.choice ⟨a, d, v, lp, k, s, T.score, T.prior, T.factors⟩ :: es) T' s' e

variable {laws : Densities D R} {P : PlainProgram κ D R} {T T' T'' : Totals R}
  {step step' : Step κ D R} {es fs gs : List (Event κ D R)} {s s' : Store} {e e' : Ending κ}
  {c : Choice κ D R} {k : κ}

namespace Runs

theorem factors_eq (runs : Runs laws P T step es T' s e) :
    T'.factors = T.factors + (Event.factors es).length := by
  induction runs with
  | exit => rfl
  | suspend => rfl
  | factor goes runs ih =>
    rw [ih, Event.factors_factor, List.length_cons]
    simp only [Totals.absorb]
    omega
  | choice weighs goes runs ih => exact ih

theorem suspended_after (runs : Runs laws P T step es T' s (.suspended k)) :
    T.factors < T'.factors := by
  generalize same : Ending.suspended k = e at runs
  induction runs with
  | exit => cases same
  | suspend => exact Nat.lt_succ_self _
  | factor goes runs ih => exact Nat.lt_of_succ_lt (ih same)
  | choice weighs goes runs ih => exact ih same

theorem prior_eq (runs : Runs laws P T step es T' s e) :
    T'.prior = ((Event.choices es).map (·.logDensity)).foldl (· + ·) T.prior := by
  induction runs with
  | exit => rfl
  | suspend => rfl
  | factor goes runs ih => exact ih
  | choice weighs goes runs ih => exact ih

theorem extend (runs : Runs laws P T step es T' s (.suspended k))
    (goes : P.next k s .absent = .ok step') (more : Runs laws P T' step' fs T'' s' e') :
    Runs laws P T step (es ++ fs) T'' s' e' := by
  generalize same : Ending.suspended k = e at runs
  induction runs with
  | exit => cases same
  | suspend =>
    cases same
    exact .factor goes more
  | factor goes' runs ih => exact .factor goes' (ih goes more same)
  | choice weighs goes' runs ih => exact .choice weighs goes' (ih goes more same)

theorem after_choice (runs : Runs laws P T step (fs ++ .choice c :: gs) T' s e) :
    laws.logDensity c.dist c.value = .ok c.logDensity ∧
      ∃ step', P.next c.k c.store c.value = .ok step' ∧
        Runs laws P (c.totals.choose c.logDensity) step' gs T' s e := by
  generalize same : fs ++ .choice c :: gs = es at runs
  induction runs generalizing fs with
  | exit => simp at same
  | suspend =>
    cases fs with
    | nil => cases same
    | cons => simp at same
  | factor goes runs ih =>
    cases fs with
    | nil => cases same
    | cons => exact ih (List.cons.inj same).2
  | choice weighs goes runs ih =>
    cases fs with
    | nil =>
      cases same
      exact ⟨weighs, _, goes, runs⟩
    | cons => exact ih (List.cons.inj same).2

/-- A choice may have another outcome, and another run after it. -/
theorem replace (runs : Runs laws P T step (fs ++ .choice c :: gs) T' s e) {v : Value} {lp : R}
    (weighs : laws.logDensity c.dist v = .ok lp) (goes : P.next c.k c.store v = .ok step')
    (other : Runs laws P (c.totals.choose lp) step' es T'' s' e') :
    Runs laws P T step (fs ++ .choice (c.redrawn v lp) :: es) T'' s' e' := by
  generalize same : fs ++ .choice c :: gs = events at runs
  induction runs generalizing fs with
  | exit => simp at same
  | suspend =>
    cases fs with
    | nil => cases same
    | cons => simp at same
  | factor goes' runs ih =>
    cases fs with
    | nil => cases same
    | cons f fs =>
      obtain ⟨rfl, rest⟩ := List.cons.inj same
      exact .factor goes' (ih rest)
  | choice weighs' goes' runs ih =>
    cases fs with
    | nil =>
      cases same
      exact .choice weighs goes other
    | cons f fs =>
      obtain ⟨rfl, rest⟩ := List.cons.inj same
      exact .choice weighs' goes' (ih rest)

end Runs

end

end ProbCore
