import ProbCore.Proofs.StraightPrograms

/-! A particle filter of a program without choices. All its particles rest at the same factor and
weigh the same, so that each round adds the score of that factor to the mass. -/

namespace ProbCore

section

variable {R : Type} [Score R]

theorem locate_lt {sums : List R} (some_there : sums ≠ []) (point : R) :
    Score.locate sums point < sums.length := by
  have positive : 0 < sums.length := List.length_pos_iff.mpr some_there
  rw [Score.locate]
  omega

/-- Evenly spaced points select members of a population. -/
theorem systematic_members {weights : List R} (some_there : weights ≠ []) (offset : R) (n : Nat) :
    ∃ indices, Score.systematic weights offset n = .ok indices ∧ indices.length = n ∧
      ∀ i ∈ indices, i < weights.length := by
  have long : (Score.cumulative (Score.shares weights)).length = weights.length := by
    simp [length_cumulative, Score.shares]
  have some_sum : Score.cumulative (Score.shares weights) ≠ [] := by
    rw [← List.length_pos_iff, long]
    exact List.length_pos_iff.mpr some_there
  unfold Score.systematic
  dsimp only
  rw [List.getLast?_eq_getLast_of_ne_nil some_sum]
  refine ⟨_, rfl, by simp, ?_⟩
  intro i member
  obtain ⟨j, _, rfl⟩ := List.mem_map.mp member
  refine lt_of_lt_of_eq (locate_lt ?_ _) (by rw [List.length_map, long])
  simpa using some_sum

end

/-- Equal weights are their own mean. -/
theorem Exact.logMean_same {ws : List Exact} (some_there : ws ≠ []) {y : ℝ} (same : ∀ w ∈ ws, w = .real y) :
    Score.logSumExp ws - Score.logNat ws.length = .real y := by
  have long : ws.length ≠ 0 := by simpa using some_there
  have positive : (0 : ℝ) < ws.length := Nat.cast_pos.mpr (Nat.pos_of_ne_zero long)
  have mass : Exact.mass ws = ws.length * Real.exp y := by
    rw [List.eq_replicate_of_mem same, Exact.mass, List.map_replicate, List.sum_replicate, nsmul_eq_mul,
      List.length_replicate]
    rfl
  rw [Exact.logSumExp_eq some_there fun w member => ⟨y, same w member⟩, mass, Exact.logNat_eq long,
    Real.log_mul positive.ne' (Real.exp_ne_zero y), Real.log_exp, Exact.real_sub, add_sub_cancel_left]

variable {σ κ D : Type} [Host (EStateM Failure σ) D Exact] [LawfulHost σ D Exact] [AnsweringHost σ D]
  {resume : Resume (EStateM Failure σ) κ D Exact} {v : Value} {x : Exact} {xs : List Exact}

/-- Members are selected from a population that has some weight. -/
theorem Particle.select_answers (method : Resampling) {weights : List Exact}
    (some_weight : ∃ w ∈ weights, w.IsReal) (proper : ∀ w ∈ weights, w.Proper) (n : Nat) :
    Answers (fun indices => indices.length = n ∧ ∀ i ∈ indices, i < weights.length)
      (Particle.select method weights n : EStateM Failure σ _) := by
  cases method with
  | multinomial => exact AnsweringHost.categorical_answers some_weight proper
  | systematic =>
    obtain ⟨w, member, _⟩ := some_weight
    apply AnsweringHost.offset_answers.bind
    intro offset _ _
    obtain ⟨indices, selected, members⟩ := systematic_members (List.ne_nil_of_mem member) offset n
    exact .lift selected members

namespace Filter

variable {c : Config} {ps : List (Particle κ D Exact)}

omit [LawfulHost σ D Exact] [AnsweringHost σ D] in
theorem moveTrace_still {t : Trace κ D Exact} (choiceless : t.choices = []) (fuel limit moves : Nat) :
    moveTrace resume fuel limit moves t = pure t := by
  induction moves with
  | zero => rfl
  | succ moves ih =>
    rw [moveTrace, Kernel.move_still choiceless, pure_bind]
    exact ih

omit [LawfulHost σ D Exact] [AnsweringHost σ D] in
/-- No particle is moved. -/
theorem moveAll_choiceless (choiceless : ∀ p ∈ ps, p.trace.choices = []) (steps limit : Nat) :
    moveAll resume steps c limit ps = pure ps := by
  unfold moveAll
  split
  · rfl
  · induction ps with
    | nil => rfl
    | cons p ps ih =>
      obtain ⟨first, rest⟩ := List.forall_mem_cons.mp choiceless
      rw [List.mapM_cons, ih rest, rejuvenate, moveTrace_still first, pure_bind, pure_bind, pure_bind]

theorem resample_answers (some_weight : ∃ p ∈ ps, p.weight.IsReal) (proper : ∀ p ∈ ps, p.weight.Proper) :
    Answers (fun qs => qs.length = ps.length ∧ ∀ q ∈ qs, ∃ p ∈ ps, q = ⟨p.trace, Score.zero⟩)
      (resample c ps : EStateM Failure σ _) := by
  have weights : ∀ w ∈ ps.map (·.weight), w.Proper := by simpa using proper
  have heavy : ∃ w ∈ ps.map (·.weight), w.IsReal := by simpa using some_weight
  apply (Particle.select_answers c.resampling heavy weights ps.length).bind
  intro indices _ ⟨long, inside⟩
  have all : ∀ i ∈ indices, i < ps.length := by simpa using inside
  refine .pure ⟨?_, ?_⟩
  · rw [← long]
    clear * - all
    induction indices with
    | nil => rfl
    | cons i indices ih =>
      obtain ⟨first, rest⟩ := List.forall_mem_cons.mp all
      rw [List.filterMap_cons, List.getElem?_eq_getElem first]
      simp only [Option.map_some, List.length_cons, ih rest]
  · intro q member
    obtain ⟨i, _, made⟩ := List.mem_filterMap.mp member
    obtain ⟨p, found, rfl⟩ := Option.map_eq_some_iff.mp made
    exact ⟨p, List.mem_of_getElem? found, rfl⟩

omit [Host (EStateM Failure σ) D Exact] [LawfulHost σ D Exact] [AnsweringHost σ D] in
/-- Particles that weigh the same weigh that on average. -/
theorem logMeanWeight_same (some_there : ps ≠ []) {y : ℝ} (same : ∀ p ∈ ps, p.weight = .real y) :
    Particle.logMeanWeight ps = .ok (.real y) := by
  have weights : ∀ w ∈ ps.map (·.weight), w = .real y := by simpa using same
  have mean := Exact.logMean_same (by simpa using some_there) weights
  rw [List.length_map] at mean
  have total := Exact.logSumExp_eq (by simpa using some_there) fun w member => ⟨y, weights w member⟩
  unfold Particle.logMeanWeight
  dsimp only
  rw [mean, total]
  rfl

/-- So many particles of no weight yet, all of them with these scores to absorb. -/
structure Level (resume : Resume (EStateM Failure σ) κ D Exact) (v : Value) (xs : List Exact) (n : Nat)
    (ps : List (Particle κ D Exact)) : Prop where
  length : ps.length = n
  each : ∀ p ∈ ps, Rests resume v xs p.trace ∧ p.weight = 0

/-- So many particles that have come to this value. -/
structure Arrived (v : Value) (n : Nat) (ps : List (Particle κ D Exact)) : Prop where
  length : ps.length = n
  each : ∀ p ∈ ps, Came v p.trace ∧ p.weight = 0

variable {n k : Nat} {mass : Exact} {report : Report Exact}

theorem rounds_next {good : Outcome κ D Exact → Prop} {allowed : Failure → Prop} (positive : 0 < n)
    (real : x.IsReal) (level : Level resume v (x :: xs) n ps)
    (rest : ∀ qs report, Level resume v xs n qs →
      Concludes good allowed fun fuel => rounds resume (fuel + (1 + k)) c fuel qs (mass + x) report) :
    Concludes good allowed fun fuel => rounds resume (fuel + k) c fuel ps mass report := by
  have real_zero : (0 : Exact).IsReal := ⟨0, Exact.real_zero.symm⟩
  have advances : Concludes (fun qs => qs.length = ps.length ∧ ∀ q ∈ qs, Rests resume v xs q.trace ∧ q.weight = x)
      (fun _ => False) fun fuel => ps.mapM (Particle.advance resume (fuel + (1 + k))) := by
    apply Concludes.mapM
    intro p member
    obtain ⟨rests, weight⟩ := level.each p member
    refine ((Particle.advance_next rests (weight ▸ real_zero) real).spare (1 + k)).imp ?_ fun _ no => no
    intro q ⟨further, gained, _⟩
    exact ⟨further, by rw [gained, weight, zero_add]⟩
  refine Concludes.spend (Concludes.bind (advances.imp (fun _ holds => holds) fun _ no => no.elim) ?_)
    fun fuel => by rw [Nat.add_assoc, rounds_succ]
  intro qs ⟨long, each⟩
  have some_there : qs ≠ [] := by
    rw [← List.length_pos_iff, long, level.length]
    exact positive
  have running : ¬ qs.all Particle.finished = true := by
    obtain ⟨q, member⟩ := List.exists_mem_of_ne_nil _ some_there
    obtain ⟨rests, weight⟩ := each q member
    intro all
    have finished := List.all_eq_true.mp all q member
    rw [Particle.unfinished_of_rests rests (weight ▸ real)] at finished
    cases finished
  obtain ⟨y, rfl⟩ := real
  have mean := logMeanWeight_same some_there fun q member => (each q member).2
  simp only [if_neg running, mean]
  refine Concludes.bind (.answers (Answers.lift (a := .real y) rfl rfl)) ?_
  intro more same
  subst same
  -- Every particle is drawn from some other that rests at the same factor.
  have real (q : Particle κ D Exact) (member : q ∈ qs) : q.weight.IsReal := ⟨y, (each q member).2⟩
  obtain ⟨q, present⟩ := List.exists_mem_of_ne_nil _ some_there
  refine Concludes.bind (.answers (resample_answers ⟨q, present, real q present⟩
    fun q member => .inl (real q member))) ?_
  intro drawn ⟨as_many, from_qs⟩
  have next : Level resume v xs n drawn := by
    refine ⟨by rw [as_many, long, level.length], ?_⟩
    intro q member
    obtain ⟨p, present, rfl⟩ := from_qs q member
    exact ⟨(each p present).1, Exact.zero_eq⟩
  have choiceless : ∀ q ∈ drawn, q.trace.choices = [] := fun q member => (next.each q member).1.choices
  simp only [moveAll_choiceless choiceless, pure_bind]
  exact Concludes.bind (.answers (Answers.note _)) fun _ _ => rest drawn _ next

omit [AnsweringHost σ D] in
/-- The last round, when every particle comes to its value. -/
theorem rounds_last (positive : 0 < n) (long : ps.length = n)
    (each : ∀ p ∈ ps, Concludes (fun q => Came v q.trace ∧ q.weight = 0) (fun _ => False)
      fun fuel => p.advance resume fuel) :
    Concludes (fun out => out.logMass = mass ∧ Arrived v n out.survivors) (fun _ => False)
      fun fuel => rounds resume (fuel + k) c fuel ps mass report := by
  have advances : Concludes (fun qs => qs.length = ps.length ∧ ∀ q ∈ qs, Came v q.trace ∧ q.weight = 0)
      (fun _ => False) fun fuel => ps.mapM (Particle.advance resume (fuel + (1 + k))) :=
    Concludes.mapM fun p member => (each p member).spare (1 + k)
  refine Concludes.spend (Concludes.bind advances ?_) fun fuel => by rw [Nat.add_assoc, rounds_succ]
  intro qs ⟨as_many, each⟩
  have some_there : qs ≠ [] := by
    rw [← List.length_pos_iff, as_many, long]
    exact positive
  have finished : qs.all Particle.finished = true :=
    List.all_eq_true.mpr fun q member => Particle.finished_of_came (each q member).1
  have mean := logMeanWeight_same (y := 0) some_there fun q member => (each q member).2
  have survive : qs.filter Particle.alive = qs := by
    rw [List.filter_eq_self]
    exact fun q member => Particle.alive_of_real ⟨0, (each q member).2⟩
  simp only [if_pos finished, mean, survive]
  refine Concludes.bind (.answers (Answers.lift (a := .real 0) rfl rfl)) ?_
  intro more same
  subst same
  exact .pure ⟨by rw [Exact.real_zero, add_zero], by rw [as_many, long], each⟩

/-- The mass of the population is the sum of the scores, whatever their number. -/
theorem rounds_sum (positive : 0 < n) (real : ∀ x ∈ xs, x.IsReal) (level : Level resume v xs n ps) :
    Concludes (fun out => out.logMass = mass + xs.sum ∧ Arrived v n out.survivors) (fun _ => False)
      fun fuel => rounds resume (fuel + k) c fuel ps mass report := by
  induction xs generalizing ps mass report k with
  | nil =>
    rw [List.sum_nil, add_zero]
    apply rounds_last positive level.length
    intro p member
    obtain ⟨rests, weight⟩ := level.each p member
    have ends := Particle.advance_end rests ⟨0, weight⟩
    rw [weight] at ends
    exact ends
  | cons x xs ih =>
    obtain ⟨first, others⟩ := List.forall_mem_cons.mp real
    apply rounds_next positive first level
    intro qs report next
    rw [List.sum_cons, ← add_assoc]
    exact ih others next

/-- At an impossible score the whole population loses its weight. -/
theorem rounds_hopeless (positive : 0 < n) (proper : ∀ x ∈ xs, x.Proper) (among : .negInf ∈ xs)
    (level : Level resume v xs n ps) :
    Concludes (fun _ => False) (fun e => e = .degenerate)
      fun fuel => rounds resume (fuel + k) c fuel ps mass report := by
  induction xs generalizing ps mass report k with
  | nil => exact (nomatch among)
  | cons x xs ih =>
    obtain ⟨first, others⟩ := List.forall_mem_cons.mp proper
    obtain real | rfl := first
    · apply rounds_next positive real level
      intro qs report next
      refine ih others ?_ next
      obtain ⟨y, rfl⟩ := real
      simpa using among
    · have advances : Concludes (fun qs => qs.length = ps.length ∧ ∀ q ∈ qs, q.weight = .negInf)
          (fun _ => False) fun fuel => ps.mapM (Particle.advance resume (fuel + (1 + k))) := by
        apply Concludes.mapM
        intro p member
        obtain ⟨rests, weight⟩ := level.each p member
        exact (Particle.advance_impossible rests ⟨0, weight⟩).spare (1 + k)
      refine Concludes.spend (Concludes.bind (advances.imp (fun _ holds => holds) fun _ no => no.elim) ?_)
        fun fuel => by rw [Nat.add_assoc, rounds_succ]
      intro qs ⟨_, lost⟩
      have finished : qs.all Particle.finished = true := by
        rw [List.all_eq_true]
        intro q member
        simp [Particle.finished, Particle.alive, lost q member, Score.less, Score.impossible, Exact.less]
      have weights : ∀ w ∈ qs.map (·.weight), w = .negInf := by simpa using lost
      have massless : Exact.mass (qs.map (·.weight)) = 0 := by
        rw [List.eq_replicate_of_mem weights, Exact.mass, List.map_replicate, List.sum_replicate]
        exact smul_zero _
      simp only [if_pos finished, logMeanWeight_degenerate (fun w member => .inr (weights w member)) massless]
      have fails : Concludes (fun _ => False) (fun e => e = .degenerate)
          fun _ => (Host.lift (.error .degenerate) : EStateM Failure σ Exact) := .fail rfl
      exact Concludes.bind fails fun _ no => no.elim

variable {t : Trace κ D Exact}

omit [AnsweringHost σ D] in
theorem level_replicate (rests : Rests resume v xs t) (n : Nat) :
    Level resume v xs n (List.replicate n ⟨t, Score.zero⟩) := by
  refine ⟨List.length_replicate, ?_⟩
  intro p member
  obtain rfl := List.eq_of_mem_replicate member
  exact ⟨rests, Exact.zero_eq⟩

/-- A filter that starts at a rest adds up the scores that are left. -/
theorem run_sum (positive : 0 < n) (rests : Rests resume v xs t) (real : ∀ x ∈ xs, x.IsReal) :
    Concludes (fun out => out.logMass = xs.sum ∧ Arrived v n out.survivors) (fun _ => False)
      fun fuel => run resume fuel c (List.replicate n ⟨t, Score.zero⟩) := by
  refine (rounds_sum (k := 0) positive real (level_replicate rests n)).imp ?_ fun _ no => no
  intro out ⟨mass, arrived⟩
  exact ⟨by rw [mass, Exact.zero_eq, zero_add], arrived⟩

omit [AnsweringHost σ D] in
theorem run_came (positive : 0 < n) (came : Came v t) :
    Concludes (fun out => Arrived v n out.survivors) (fun _ => False)
      fun fuel => run resume fuel c (List.replicate n ⟨t, Score.zero⟩) := by
  refine (rounds_last (k := 0) positive List.length_replicate ?_).imp (fun _ both => both.2) fun _ no => no
  intro p member
  obtain rfl := List.eq_of_mem_replicate member
  have finished : (⟨t, Score.zero⟩ : Particle κ D Exact).finished = true := Particle.finished_of_came came
  simp only [Particle.advance_finished finished]
  exact .pure ⟨came, Exact.zero_eq⟩

theorem run_hopeless (positive : 0 < n) (rests : Rests resume v xs t) (proper : ∀ x ∈ xs, x.Proper)
    (among : .negInf ∈ xs) :
    Concludes (fun _ => False) (fun e => e = .degenerate)
      fun fuel => run resume fuel c (List.replicate n ⟨t, Score.zero⟩) :=
  rounds_hopeless (k := 0) positive proper among (level_replicate rests n)

end Filter

end ProbCore
