import ProbCore.Proofs.EvidenceMean
import ProbCore.Proofs.SingleParticle
import ProbCore.Proofs.TotalWeight

/-! Executions after their first factor. If no other factor adds anything to what the score has beyond the
prior, then particles gain no weight from there on, or one that is no number. An inner filter comes to its end
after one round, and counts which particles are left. -/

namespace ProbCore

open Kernel

namespace Exact

theorem real_of_sub {x y : Exact} (real : (x - y).IsReal) : x.IsReal ∧ y.IsReal := by
  obtain ⟨z, same⟩ := real
  cases x with
  | real x =>
    cases y with
    | real y => exact ⟨⟨x, rfl⟩, ⟨y, rfl⟩⟩
    | negInf | posInf | nan => cases same
  | negInf | posInf | nan =>
    cases y with
    | real y => cases same
    | negInf | posInf | nan => cases same

/-- Adding what is finite or likely without bound to a prior, and taking the prior away again. -/
theorem add_sub_cases (prior : Exact) {y : Exact} (fine : y.IsReal ∨ y = .posInf) :
    prior + y - prior = y ∨ prior + y - prior = .nan := by
  rcases fine with ⟨y, rfl⟩ | rfl
  · exact add_sub_real prior y
  · exact add_sub_posInf prior

end Exact

theorem Yields.mapM_length {σ α β : Type} {f : α → EStateM Failure σ β} {xs : List α} {ys : List β}
    (yields : Yields (xs.mapM f) ys) : ys.length = xs.length := by
  induction xs generalizing ys with
  | nil => exact congrArg List.length yields.pure
  | cons x xs ih =>
    rw [List.mapM_cons] at yields
    obtain ⟨_, _, yields⟩ := yields.bind
    obtain ⟨_, others, yields⟩ := yields.bind
    rw [yields.pure, List.length_cons, List.length_cons, ih others]

namespace Filter

section

variable {σ κ D : Type} [Host (EStateM Failure σ) D Exact] {resume : Resume (EStateM Failure σ) κ D Exact}
  {fuel : Nat} {c : Config} {t : Trace κ D Exact} {qs : List (Particle κ D Exact)}

/-- A particle that is done with its weight unchanged, or lost. -/
def Spent (q : Particle κ D Exact) : Prop :=
  q.weight = 0 ∧ q.trace.done = true ∨ q.weight = .negInf ∨ q.weight = .nan

omit [Host (EStateM Failure σ) D Exact] in
theorem Spent.finished {q : Particle κ D Exact} (spent : Spent q) : q.finished = true := by
  rcases spent with ⟨_, done⟩ | lost | lost
  · rw [Particle.finished, done, Bool.true_or]
  all_goals
    have dead : q.alive = false := by
      rw [Particle.alive, lost]
      rfl
    rw [Particle.finished, dead, Bool.not_false, Bool.or_true]

/-- The mass of particles that are spent is how many of them are alive. -/
theorem mass_spent (spent : ∀ q ∈ qs, q.weight = 0 ∨ q.weight = .negInf) :
    Exact.mass (qs.map (·.weight)) = (qs.filter Particle.alive).length := by
  induction qs with
  | nil => exact Nat.cast_zero.symm
  | cons q qs ih =>
    obtain ⟨first, rest⟩ := List.forall_mem_cons.mp spent
    rw [List.map_cons, Exact.mass_cons, ih rest]
    rcases first with whole | lost
    · have alive : q.alive = true := by
        rw [Particle.alive, whole]
        rfl
      have one : (0 : Exact).weight = 1 := Real.exp_zero
      rw [List.filter_cons_of_pos alive, whole, one, List.length_cons, Nat.cast_succ, add_comm]
    · have dead : ¬ q.alive = true := by
        rw [Particle.alive, lost]
        exact Bool.false_ne_true
      have none_left : Exact.negInf.weight = 0 := rfl
      rw [List.filter_cons_of_neg dead, lost, none_left, zero_add]

theorem finite_spent (spent : ∀ q ∈ qs, q.weight = 0 ∨ q.weight = .negInf) :
    ∀ w ∈ qs.map (·.weight), w.IsReal ∨ w = .negInf :=
  List.forall_mem_map.mpr fun q member => (spent q member).imp_left fun whole => ⟨0, whole⟩

theorem logMeanWeight_spent (spent : ∀ q ∈ qs, q.weight = 0 ∨ q.weight = .negInf)
    (some_left : (qs.filter Particle.alive).length ≠ 0) :
    Particle.logMeanWeight qs =
      .ok (.real (Real.log (qs.filter Particle.alive).length - Real.log qs.length)) := by
  have massive : 0 < Exact.mass (qs.map (·.weight)) := by
    rw [mass_spent spent]
    exact Nat.cast_pos.mpr (Nat.pos_of_ne_zero some_left)
  have some_there : qs.length ≠ 0 := fun empty =>
    some_left (Nat.le_zero.mp (empty ▸ List.length_filter_le Particle.alive qs))
  rw [logMeanWeight_eq (finite_spent spent) massive some_there, mass_spent spent]

/-- A mean that is known of spent particles: no number if some weight is none, and else the share of them
that is alive. -/
theorem mean_spent {mean : Exact} (spent : ∀ q ∈ qs, Spent q) (known : Particle.logMeanWeight qs = .ok mean) :
    mean = .nan ∨ (∃ q ∈ qs, q.weight = 0) ∧ (qs.filter Particle.alive).length ≠ 0 ∧
      mean = .real (Real.log (qs.filter Particle.alive).length - Real.log qs.length) := by
  by_cases among : .nan ∈ qs.map (·.weight)
  · left
    unfold Particle.logMeanWeight at known
    rw [Exact.logSumExp_nan among] at known
    exact (Except.ok.inj known).symm.trans (Exact.nan_sub _)
  have weights : ∀ q ∈ qs, q.weight = 0 ∨ q.weight = .negInf := by
    intro q member
    rcases spent q member with ⟨whole, _⟩ | lost | spoilt
    · exact .inl whole
    · exact .inr lost
    · exact absurd (spoilt ▸ List.mem_map_of_mem member) among
  by_cases none_left : (qs.filter Particle.alive).length = 0
  · rw [logMeanWeight_degenerate (finite_spent weights) (by rw [mass_spent weights, none_left, Nat.cast_zero])]
      at known
    cases known
  · rw [logMeanWeight_spent weights none_left] at known
    obtain ⟨q, kept⟩ := List.exists_mem_of_length_pos (Nat.pos_of_ne_zero none_left)
    obtain ⟨member, alive⟩ := List.mem_filter.mp kept
    refine .inr ⟨⟨q, member, ?_⟩, none_left, (Except.ok.inj known).symm⟩
    rcases weights q member with whole | lost
    · exact whole
    · rw [Particle.alive, lost] at alive
      cases alive

/-- If all copies of a trace are finished after one round, the run ends with it. -/
theorem run_finished [SoundHost σ D Exact]
    (finished : ∀ q, Yields ((⟨t, 0⟩ : Particle κ D Exact).advance resume fuel) q → q.finished = true) {n : Nat}
    {out : Outcome κ D Exact} (yields : Yields (run resume fuel c (List.replicate n ⟨t, Score.zero⟩)) out) :
    ∃ qs, (∀ q ∈ qs, Yields ((⟨t, 0⟩ : Particle κ D Exact).advance resume fuel) q) ∧ qs.length = n ∧
      Particle.logMeanWeight qs = .ok out.logMass ∧ out.survivors = qs.filter Particle.alive := by
  cases fuel with
  | zero => exact yields.not_fail
  | succ fuel =>
    unfold run at yields
    rw [Exact.zero_eq] at yields
    obtain ⟨qs, _, advanced, known, goes⟩ := rounds_cases yields
    have came : ∀ q ∈ qs, Yields ((⟨t, 0⟩ : Particle κ D Exact).advance resume (fuel + 1)) q := by
      intro q member
      obtain ⟨p, present, ran⟩ := advanced.mapM_mem q member
      rwa [List.eq_of_mem_replicate present] at ran
    have all := List.all_eq_true.mpr fun q member => finished q (came q member)
    obtain ⟨_, rfl⟩ | ⟨unfinished, _⟩ := goes
    · refine ⟨qs, came, by rw [advanced.mapM_length, List.length_replicate], ?_, rfl⟩
      rwa [zero_add]
    · cases all.symm.trans unfinished

/-- If all copies of a trace are spent after one round, the estimate is the share of them that is left. It is
no number if some weight is none. -/
theorem run_spent [SoundHost σ D Exact]
    (spent : ∀ q, Yields ((⟨t, 0⟩ : Particle κ D Exact).advance resume fuel) q → Spent q) {n : Nat}
    {out : Outcome κ D Exact} (yields : Yields (run resume fuel c (List.replicate n ⟨t, Score.zero⟩)) out) :
    out.logMass = .nan ∨
      (∃ q, Yields ((⟨t, 0⟩ : Particle κ D Exact).advance resume fuel) q ∧ q.weight = 0) ∧
        out.survivors.length ≠ 0 ∧ out.logMass = .real (Real.log out.survivors.length - Real.log n) := by
  obtain ⟨qs, came, rfl, known, survivors⟩ := run_finished (fun q yields => (spent q yields).finished) yields
  rcases mean_spent (fun q member => spent q (came q member)) known with spoilt | ⟨⟨q, member, whole⟩, left, share⟩
  · exact .inl spoilt
  · rw [survivors]
    exact .inr ⟨⟨q, came q member, whole⟩, left, share⟩

/-- A run of one round. -/
theorem run_once [LawfulHost σ D Exact] {ps : List (Particle κ D Exact)} {mean : Exact} {w w' : σ}
    (advanced : ps.mapM (Particle.advance resume (fuel + 1)) w = .ok qs w')
    (finished : qs.all Particle.finished = true) (known : Particle.logMeanWeight qs = .ok mean) :
    ∃ out, run resume (fuel + 1) c ps w = .ok out w' ∧ out.logMass = mean ∧
      out.survivors = qs.filter Particle.alive := by
  refine ⟨⟨Score.zero + mean, qs.filter Particle.alive, ⟨0, Score.ofNat ps.length⟩⟩, ?_, ?_, rfl⟩
  · unfold run
    rw [rounds_succ]
    refine bind_eq_ok.mpr ⟨qs, w', advanced, ?_⟩
    rw [if_pos finished]
    exact bind_eq_ok.mpr ⟨mean, w', lift_eq_ok.mpr ⟨known, rfl⟩, rfl⟩
  · rw [Exact.zero_eq, zero_add]

end

end Filter

namespace Kernel

section

variable {σ κ D : Type} [Host (EStateM Failure σ) D Exact] {resume : Resume (EStateM Failure σ) κ D Exact}
  {chosen : D → Value → Prop} {entry : κ} {s : Store} {moving : Prop}

/-- No execution comes to a second factor. -/
def OnlyFirst (resume : Resume (EStateM Failure σ) κ D Exact) (chosen : D → Value → Prop) (entry : κ)
    (s : Store) : Prop :=
  ∀ cs xs s' k a x, Arrives resume chosen entry s cs xs (.factor s' k a x) → xs = []

/-- No factor after the first adds anything to this. -/
def Still (resume : Resume (EStateM Failure σ) κ D Exact) (chosen : D → Value → Prop) (entry : κ) (s : Store)
    (y : Exact) : Prop :=
  ∀ cs xs s' k a x, xs ≠ [] → Arrives resume chosen entry s cs xs (.factor s' k a x) → tolerable x = true →
    y + x = y

omit [Host (EStateM Failure σ) D Exact] in
theorem OnlyFirst.still (only : OnlyFirst resume chosen entry s) (y : Exact) : Still resume chosen entry s y :=
  fun cs xs s' k a x some_there arrives _ => absurd (only cs xs s' k a x arrives) some_there

omit [Host (EStateM Failure σ) D Exact] in
theorem still_posInf : Still resume chosen entry s .posInf := by
  intro _ _ _ _ _ x _ _ fine
  cases x with
  | real | posInf => rfl
  | negInf | nan => cases fine

/-- Executions that have absorbed a factor, and whose score has this beyond the prior for good. -/
def settled (chooses : Chooses moving resume chosen entry s) {y : Exact} (still : Still resume chosen entry s y) :
    Invariant moving resume where
  holds cs T k s' v := T.score = T.prior + y ∧
    ∃ xs, xs ≠ [] ∧ Reaches resume chosen entry s (cs.map Choice.told) xs k s' v
  fair := Met resume chosen entry s
  choose {cs T k k' s₁ s₂ u v a d lp} held goes offered weighs possible := by
    obtain ⟨score, xs, some_there, reaches⟩ := held
    have arrives : Arrives resume chosen entry s _ xs (.sample s₂ k' a d) := ⟨k, s₁, u, reaches, goes⟩
    have choice := chooses _ xs s₂ k' a d v arrives offered ⟨lp, weighs, possible⟩
    refine ⟨⟨choice, _, xs, arrives⟩, ?_, xs, some_there, ?_⟩
    · change T.score + lp = T.prior + lp + y
      rw [score]
      exact add_right_comm T.prior y lp
    · rw [List.map_append]
      exact reaches.choose goes choice
  absorb {cs T k k' s₁ s₂ u a x} held goes fine := by
    obtain ⟨score, xs, some_there, reaches⟩ := held
    refine ⟨?_, xs ++ [x], List.append_ne_nil_of_right_ne_nil xs (List.cons_ne_nil x []), reaches.absorb goes⟩
    change T.score + x = T.prior + y
    rw [score, add_assoc, still _ xs s₂ k' a x some_there ⟨k, s₁, u, reaches, goes⟩ fine]

variable [SoundHost σ D Exact] {t t' : Trace κ D Exact} {k : κ}

omit [SoundHost σ D Exact] in
theorem settled_score {chooses : Chooses moving resume chosen entry s} {y : Exact}
    {still : Still resume chosen entry s y} (closes : (settled chooses still).Closes t) :
    t.score = t.prior + y := by
  cases ending : t.ending with
  | done v =>
    obtain ⟨_, _, _, ⟨score, _⟩, _⟩ := closes.leads ending
    exact score
  | suspended k => exact (closes.holds ending).1

/-- What the score has at a factor beyond its prior; where that is settled, the execution can go on so. -/
theorem Made.settles (chooses : Chooses moving resume chosen entry s) (made : Made moving resume entry s t)
    (ending : t.ending = .suspended k) (some_there : t.factors ≠ 0) :
    ∃ y : Exact, (y.IsReal ∨ y = .posInf) ∧ t.score = t.prior + y ∧
      ∀ still : Still resume chosen entry s y, (settled chooses still).Closes t := by
  have closes := ((absorbed chooses).upholds_made (absorbed_begins chooses) made).closes
  obtain ⟨xs, absorbs⟩ := closes.holds ending
  refine ⟨xs.sum, absorbs.tolerated.sum_cases, absorbs.score, fun still => ?_⟩
  unfold Invariant.Closes
  rw [ending]
  refine ⟨absorbs.score, xs, ?_, absorbs.reaches⟩
  rintro rfl
  exact some_there absorbs.count

theorem OnlyFirst.factors_le (only : OnlyFirst resume chosen entry s)
    (chooses : Chooses moving resume chosen entry s) (made : Made moving resume entry s t) : t.factors ≤ 1 := by
  obtain ⟨xs, k, s', v, absorbs⟩ := made.absorbs chooses
  have count : t.factors = xs.length := absorbs.count
  match xs with
  | [] | [_] => rw [count]; simp
  | x :: y :: rest =>
    have parts : x :: y :: rest = [x] ++ y :: rest := rfl
    obtain ⟨cs, k, s₁, u, k', s₂, a, reaches, goes⟩ := absorbs.reaches.factor_before parts
    cases only cs [x] s₂ k' a y ⟨k, s₁, u, reaches, goes⟩

/-- Without a factor there is no likelihood, unless the prior is no number. -/
theorem Made.likelihood_factorless (chooses : Chooses moving resume chosen entry s)
    (made : Made moving resume entry s t) (none_absorbed : t.factors = 0) :
    t.likelihood = 0 ∨ t.likelihood = .nan := by
  obtain ⟨xs, k, s', v, absorbs⟩ := made.absorbs chooses
  obtain rfl : xs = [] := List.length_eq_zero_iff.mp (absorbs.count.symm.trans none_absorbed)
  have score : t.score = t.prior + .real 0 := absorbs.score
  rw [Trace.likelihood, score]
  exact Exact.add_sub_real t.prior 0

end

end Kernel

end ProbCore
