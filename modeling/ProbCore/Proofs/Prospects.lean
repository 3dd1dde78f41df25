import ProbCore.Proofs.CarefulScript
import ProbCore.Proofs.Expectation
import ProbCore.Proofs.SampledValues

/-! What is ahead of an execution. A step is worth the mass of the tree that unfolds from it, and so
is on average what the kernel records of it up to its next factor: the mass of what is ahead of that
factor, times the factor. -/

namespace ProbCore

open Expected Kernel
open scoped ENNReal

/-- The mass of all executions, from a score of zero on. -/
noncomputable def ExecutionTree.worth : ExecutionTree Exact → ℝ≥0∞
  | leaf _ => 1
  | factor x rest => chance x * rest.worth
  | choice branches rest => (branches.map fun b => chance b.2 * (rest b.1).worth).sum

/-- The probabilities of the values that a choice may take add up to one. -/
def ExecutionTree.Normalized : ExecutionTree Exact → Prop
  | leaf _ => True
  | factor _ rest => rest.Normalized
  | choice branches rest => Exact.mass (branches.map (·.2)) = 1 ∧ ∀ b ∈ branches, (rest b.1).Normalized

theorem chance_real (x : ℝ) : chance (.real x) = ENNReal.ofReal (Real.exp x) := rfl

theorem chance_ne_top (w : Exact) : chance w ≠ ⊤ := ENNReal.ofReal_ne_top

theorem chance_real_ne_zero (x : ℝ) : chance (.real x) ≠ 0 := (ENNReal.ofReal_pos.mpr (Real.exp_pos x)).ne'

theorem chance_zero : chance (.real 0) = 1 := by
  rw [chance_real, Real.exp_zero, ENNReal.ofReal_one]

theorem chance_negInf : chance .negInf = 0 := ENNReal.ofReal_zero

theorem chance_add (x y : ℝ) : chance (.real (x + y)) = chance (.real x) * chance (.real y) := by
  rw [chance_real, Real.exp_add, ENNReal.ofReal_mul (Real.exp_pos x).le]
  rfl

theorem ExecutionTree.executions_mass {tree : ExecutionTree Exact} (temperate : tree.Temperate) (score : ℝ) :
    ENNReal.ofReal (Exact.mass ((tree.executions (.real score)).map (·.2))) = chance (.real score) * tree.worth := by
  induction tree generalizing score with
  | leaf value => simp [executions, worth, chance]
  | factor x rest ih =>
    rcases temperate.1 with ⟨y, rfl⟩ | rfl
    · have going : Score.isHopeless (Exact.real score + .real y) = false := rfl
      rw [executions, going, worth, ← mul_assoc, ← chance_add, ← ih temperate.2]
      rfl
    · have stuck : Score.isHopeless (Exact.real score + .negInf) = true := rfl
      rw [executions, stuck, worth, chance_negInf, zero_mul, mul_zero]
      simp
  | choice branches rest ih =>
    rw [executions, worth]
    obtain ⟨finite, later⟩ := temperate
    induction branches with
    | nil => simp
    | cons b bs ihs =>
      obtain ⟨first, others⟩ := List.forall_mem_cons.mp finite
      obtain ⟨now, after⟩ := List.forall_mem_cons.mp later
      rw [List.map_cons, List.sum_cons, mul_add, ← ihs others after]
      rcases first with ⟨l, known⟩ | known
      · have heavy : possible b = true := by rw [possible, known]; rfl
        rw [List.filter_cons_of_pos heavy, List.flatMap_cons, List.map_append, Exact.mass_append,
          ENNReal.ofReal_add (Exact.mass_nonneg _) (Exact.mass_nonneg _), known, Exact.real_add,
          ih b.1 now, chance_add, mul_assoc]
      · have light : possible b = false := by rw [possible, known]; rfl
        rw [List.filter_cons_of_neg (by rw [light]; exact Bool.false_ne_true), known, chance_negInf, zero_mul,
          mul_zero, zero_add]

variable {κ D : Type} {laws : Densities D Exact} {P : PlainProgram κ D Exact} {s : Store}

/-- The steps that executions come to. -/
inductive Comes (laws : Densities D Exact) (P : PlainProgram κ D Exact) (s : Store) : Step κ D Exact → Prop where
  | start {step} (begins : P.next P.entry s .absent = .ok step) : Comes laws P s step
  | choose {s' k a d v step} (before : Comes laws P s (.sample s' k a d)) (listed : Listed laws d v)
      (goes : P.next k s' v = .ok step) : Comes laws P s step
  | absorb {s' k a x step} (before : Comes laws P s (.factor s' k a x)) (fine : tolerable x = true)
      (goes : P.next k s' .absent = .ok step) : Comes laws P s step

theorem Comes.next {step : Step κ D Exact} (comes : Comes laws P s step) : ∃ k s' v, P.next k s' v = .ok step := by
  cases comes with
  | start begins => exact ⟨_, _, _, begins⟩
  | choose _ _ goes => exact ⟨_, _, _, goes⟩
  | absorb _ _ goes => exact ⟨_, _, _, goes⟩

/-- A step with all that is ahead of it. -/
structure Ahead (laws : Densities D Exact) (P : PlainProgram κ D Exact) (s : Store) (score : ℝ)
    (step : Step κ D Exact) (tree : ExecutionTree Exact) : Prop where
  comes : Comes laws P s step
  unfolds : Unfolds laws P (.real score) step tree
  temperate : tree.Temperate
  normalized : tree.Normalized
  keyed : ∀ e ∈ tree.executions (.real score), ∃ k, e.1.key = .ok k

namespace Ahead

variable {score : ℝ} {tree : ExecutionTree Exact} {s' : Store} {k : κ} {a : Address}

theorem exit {v : Value} (ahead : Ahead laws P s score (.exit s' v) tree) :
    tree = .leaf v ∧ ∃ k, v.key = .ok k := by
  obtain ⟨_, unfolds, _, _, keyed⟩ := ahead
  cases unfolds
  exact ⟨rfl, keyed _ List.mem_cons_self⟩

theorem factor {x : Exact} (ahead : Ahead laws P s score (.factor s' k a x) tree) :
    (x.IsReal ∨ x = .negInf) ∧ ∃ rest, tree = .factor x rest := by
  obtain ⟨_, unfolds, temperate, _, _⟩ := ahead
  cases unfolds
  exact ⟨temperate.1, _, rfl⟩

theorem absorb {x : ℝ} {rest : ExecutionTree Exact}
    (ahead : Ahead laws P s score (.factor s' k a (.real x)) (.factor (.real x) rest)) :
    ∃ next, P.next k s' .absent = .ok next ∧ Ahead laws P s (score + x) next rest := by
  obtain ⟨comes, unfolds, temperate, normalized, keyed⟩ := ahead
  have going : Score.isHopeless (Exact.real score + .real x) = false := rfl
  cases unfolds with
  | @factor _ _ _ _ _ next _ resumes later =>
    exact ⟨next, resumes going, comes.absorb rfl (resumes going), later going, temperate.2, normalized, keyed⟩

theorem choose {d : D} (ahead : Ahead laws P s score (.sample s' k a d) tree) :
    ∃ branches rest, tree = .choice branches rest ∧ laws.support d = .ok (branches.map (·.1)) ∧
      (∀ b ∈ branches, laws.logDensity d b.1 = .ok b.2) ∧ Exact.mass (branches.map (·.2)) = 1 ∧
      ∀ b ∈ branches, ∀ l, b.2 = .real l →
        ∃ next, P.next k s' b.1 = .ok next ∧ Ahead laws P s (score + l) next (rest b.1) := by
  obtain ⟨comes, unfolds, temperate, normalized, keyed⟩ := ahead
  cases unfolds with
  | @choice _ _ _ _ _ branches next rest listed weighed resumes later =>
    refine ⟨branches, rest, rfl, listed, weighed, normalized.1, fun b member l known => ?_⟩
    have heavy : possible b = true := by rw [possible, known]; rfl
    have total : Exact.real score + b.2 = .real (score + l) := by rw [known, Exact.real_add]
    have goes := resumes b member heavy
    have found : Listed laws d b.1 :=
      ⟨_, _, listed, List.mem_map_of_mem member, weighed b member, by rw [known]; rfl⟩
    have unfolded := later b member heavy
    rw [total] at unfolded
    refine ⟨next b.1, goes, comes.choose found goes, unfolded, temperate.2 b member, normalized.2 b member, ?_⟩
    intro e inside
    refine keyed e (List.mem_flatMap.mpr ⟨b, List.mem_filter.mpr ⟨member, heavy⟩, ?_⟩)
    rwa [total]

end Ahead

/-- What is ahead of a trace, and what that is worth. -/
inductive Prospect (laws : Densities D Exact) (P : PlainProgram κ D Exact) (s : Store) (h : Nat)
    (t : Trace κ D Exact) : ℝ≥0∞ → Prop where
  | done {v key} (likelihood : t.likelihood.IsReal) (ending : t.ending = .done v) (keyed : v.key = .ok key) :
      Prospect laws P s h t 1
  | suspended {k score step tree} (likelihood : t.likelihood.IsReal) (ending : t.ending = .suspended k)
      (goes : P.next k t.store .absent = .ok step) (ahead : Ahead laws P s score step tree)
      (low : tree.height ≤ h) : Prospect laws P s h t tree.worth

theorem Prospect.mono {h h' : Nat} {t : Trace κ D Exact} {u : ℝ≥0∞} (prospect : Prospect laws P s h t u)
    (more : h ≤ h') : Prospect laws P s h' t u := by
  cases prospect with
  | done likelihood ending keyed => exact .done likelihood ending keyed
  | suspended likelihood ending goes ahead low => exact .suspended likelihood ending goes ahead (low.trans more)

/-- What the kernel's recording of an execution up to its next factor is worth: the factor times
what is ahead. -/
def Recorded.Worth (laws : Densities D Exact) (P : PlainProgram κ D Exact) (s : Store) (h : Nat) (likelihood : ℝ) :
    Option (Recorded κ D Exact) → ℝ≥0∞ → Prop
  | none, u => u = 0
  | some r, u => ∃ gain v, r.trace.likelihood = .real (likelihood + gain) ∧ Prospect laws P s h r.trace v ∧
      u = chance (.real gain) * v

theorem handler_sample_draws {limit : Option Nat} (tape : Recording κ D Exact) (s' : Store) (k : κ) {a : Address}
    (d : D) (hashable : a.isHashable = true) :
    (handler limit none : Handler (Expected laws) κ D Exact _ _).sample tape s' k a d = (do
      let value ← Host.draw d
      let lp ← Host.logDensity d value
      if Score.isImpossible lp then return .finish none
      else return .deliver ((tape.draw lp).record s' k a d value lp) value) := by
  simp only [handler, carriedOver?, hashable]
  rfl

/-- What is ahead of a step is on average what its recording is worth. -/
theorem drive_averages (addressed : ∀ s' k a d, Comes laws P s (.sample s' k a d) → a.isHashable = true)
    {fuel h : Nat} {tape : Recording κ D Exact} {score likelihood : ℝ} {step : Step κ D Exact}
    {tree : ExecutionTree Exact} (ahead : Ahead laws P s score step tree) (enough : tree.height ≤ fuel)
    (low : tree.height ≤ h + 1) (known : tape.score - tape.prior = .real likelihood) :
    Averages (drive P.resume (handler (some (tape.factors + 1)) none) fuel tape step : Expected laws _)
      (Recorded.Worth laws P s h likelihood) tree.worth := by
  induction fuel generalizing tape score step tree with
  | zero =>
    cases tree with
    | leaf | factor | choice => exact absurd enough (by simp [ExecutionTree.height])
  | succ fuel ih =>
    cases step with
    | stray v =>
      have impossible := ahead.unfolds
      cases impossible
    | exit s' v =>
      obtain ⟨rfl, key, keyed⟩ := ahead.exit
      refine .pure ⟨0, 1, ?_, .done ⟨likelihood, ?_⟩ rfl keyed, ?_⟩
      · rw [add_zero]
        exact known
      · exact known
      · rw [chance_zero, one_mul, ExecutionTree.worth]
    | factor s' k a x =>
      change Averages ((handler _ none).factor tape s' k a x >>= _) _ _
      rw [handler_factor, pure_bind]
      -- The limit is the next factor, so that the kernel stops here in any case.
      obtain ⟨finite, rest, rfl⟩ := ahead.factor
      rcases finite with ⟨y, rfl⟩ | rfl
      · have fine : tolerable (Exact.real y) = true := rfl
        rw [onFactor_stopped s' k fine (by simp [stops])]
        obtain ⟨next, goes, later⟩ := ahead.absorb
        have gained : (tape.score + .real y) - tape.prior = .real (likelihood + y) := by
          rw [add_sub_right_comm, known, Exact.real_add]
        have lower : rest.height ≤ h := Nat.le_of_succ_le_succ low
        exact .pure ⟨y, rest.worth, gained, .suspended ⟨_, gained⟩ rfl goes later lower, rfl⟩
      · have abandoned : onFactor (some (tape.factors + 1)) tape s' k .negInf = .finish none := rfl
        rw [abandoned, ExecutionTree.worth, chance_negInf, zero_mul]
        exact .pure rfl
    | sample s' k a d =>
      change Averages ((handler _ none).sample tape s' k a d >>= _) _ _
      rw [handler_sample_draws tape s' k d (addressed s' k a d ahead.comes), bind_assoc]
      obtain ⟨branches, rest, rfl, listed, weighed, normalized, later⟩ := ahead.choose
      refine (Averages.draw listed weighed normalized fun b => (rest b.1).worth).bind ?_
      rintro _ _ ⟨b, member, ⟨l, real⟩, rfl, rfl⟩
      obtain ⟨next, goes, ahead'⟩ := later b member l real
      have weighs : (Host.logDensity d b.1 : Expected laws Exact) = pure (.real l) := by
        change answer (laws.logDensity d b.1) = _
        rw [weighed b member, real]
        rfl
      have resumes : (P.resume k s' b.1 : Expected laws _) = pure next := by
        rw [PlainProgram.resume, goes]
        rfl
      have likely : Score.isImpossible (Exact.real l) = false := rfl
      let taken := (tape.draw (.real l)).record s' k a d b.1 (.real l)
      have same : taken.score - taken.prior = .real likelihood := by
        change tape.score + .real l - (tape.prior + .real l) = _
        rw [add_sub_add_comm, known, Exact.real_sub, sub_self, Exact.real_add, add_zero]
      rw [weighs, pure_bind, likely]
      simp only [Bool.false_eq_true, if_false, pure_bind, resumes]
      have lower : (rest b.1).height < (ExecutionTree.choice branches rest).height :=
        Enumeration.height_of_mem member
      exact ih ahead' (by omega) (by omega) same

end ProbCore
