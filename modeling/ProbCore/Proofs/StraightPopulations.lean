import ProbCore.Proofs.CascadeSchedule
import ProbCore.Proofs.StraightStrategies

/-! What the strategies that run populations make of a program without choices. The particles of
a filter and of a cascade never differ in weight where they rest at the same factor, so that none
is favoured, and each root of a cascade comes to the value once. -/

namespace ProbCore

variable {σ κ D : Type} [Host (EStateM Failure σ) D Exact] [LawfulHost σ D Exact] [AnsweringHost σ D]
  {resume : Resume (EStateM Failure σ) κ D Exact} {entry : κ} {s : Store} {v : Value} {x : Exact}
  {xs : List Exact} {t : Trace κ D Exact} {key : Value.Key}

namespace Filter

variable {c : Config} {n : Nat}

omit [Host (EStateM Failure σ) D Exact] [LawfulHost σ D Exact] [AnsweringHost σ D] in
theorem Arrived.some_there {ps : List (Particle κ D Exact)} (arrived : Arrived v n ps) (positive : 0 < n) :
    ps ≠ [] := by
  rw [← List.length_pos_iff, arrived.length]
  exact positive

/-- The marginal of a population that has come to the value. -/
theorem Arrived.point {ps : List (Particle κ D Exact)} (arrived : Arrived v n ps) (positive : 0 < n)
    (known : v.key = .ok key) (itself : (key == key) = true) (normalization : Option Exact)
    (diagnostics : List (String × Measure Exact)) :
    Marginal.ofLogWeights (ps.map fun p => p.trace.value?.getD .absent) (ps.map (·.weight)) normalization []
      diagnostics = .ok ⟨[v], [0], normalization, [], diagnostics⟩ := by
  refine Marginal.ofLogWeights_point known itself ?_ ?_ ?_ ?_ normalization [] diagnostics
  · simpa using arrived.some_there positive
  · intro w member
    obtain ⟨p, present, rfl⟩ := List.mem_map.mp member
    exact ⟨0, (arrived.each p present).2⟩
  · simp
  · intro u member
    obtain ⟨p, present, rfl⟩ := List.mem_map.mp member
    simp [Trace.value?, (arrived.each p present).1.ending]

theorem estimate_sum (goes : GoesOn resume v xs entry s) (real : ∀ x ∈ xs, x.IsReal)
    (known : v.key = .ok key) (itself : (key == key) = true) (positive : 1 ≤ c.particles) :
    Concludes (fun M => M.IsPoint v ∧ M.normalization = some xs.sum) (fun _ => False)
      fun fuel => estimate resume fuel c entry s := by
  refine Concludes.bind (run_sum positive (Rests.start goes) real) ?_
  intro out ⟨mass, arrived⟩
  rw [mass]
  exact .answers (.lift (arrived.point positive known itself _ _) ⟨⟨rfl, rfl⟩, rfl⟩)

theorem estimate_hopeless (goes : GoesOn resume v xs entry s) (proper : ∀ x ∈ xs, x.Proper)
    (among : .negInf ∈ xs) (positive : 1 ≤ c.particles) :
    Concludes (fun _ => False) (fun e => e = .degenerate) fun fuel => estimate resume fuel c entry s :=
  Concludes.bind ((run_hopeless positive (Rests.start goes) proper among).imp (fun _ no => no) fun _ same => same)
    fun _ no => no.elim

end Filter

namespace OpeningChain

variable {c : Config}

/-- An opening that all its completions take to the value. -/
def Promising (resume : Resume (EStateM Failure σ) κ D Exact) (v : Value) (t : Trace κ D Exact) : Prop :=
  Came v t ∨ ∃ left, (∀ x ∈ left, x.IsReal) ∧ Rests resume v left t

omit [AnsweringHost σ D] in
theorem Promising.choiceless (promising : Promising resume v t) : t.choices = [] := by
  obtain came | ⟨_, _, rests⟩ := promising
  · exact came.choices
  · exact rests.choices

/-- A state of the chain whose population has come to the value. -/
structure Holding (resume : Resume (EStateM Failure σ) κ D Exact) (v : Value) (c : Config)
    (st : State κ D Exact) : Prop where
  opening : Promising resume v st.opening
  population : Filter.Arrived v c.particles st.population

theorem complete_value (positive : 1 ≤ c.particles) (promising : Promising resume v t) :
    Concludes (fun out => Filter.Arrived v c.particles out.2) (fun _ => False)
      fun fuel => complete resume fuel c t := by
  have filters : Concludes (fun out => Filter.Arrived v c.particles out.survivors) (fun _ => False)
      fun fuel => Filter.run resume fuel c.filter (List.replicate c.particles ⟨t, Score.zero⟩) := by
    obtain came | ⟨left, real, rests⟩ := promising
    · exact Filter.run_came positive came
    · exact (Filter.run_sum positive rests real).imp (fun _ both => both.2) fun _ no => no
  exact Concludes.bind filters.nested fun out arrived => .pure arrived

theorem complete_hopeless (positive : 1 ≤ c.particles) (rests : Rests resume v xs t)
    (proper : ∀ x ∈ xs, x.Proper) (among : .negInf ∈ xs) :
    Concludes (fun _ => False) (fun e => e = .degenerate) fun fuel => complete resume fuel c t :=
  Concludes.bind (Filter.run_hopeless positive rests proper among).nested fun _ no => no.elim

theorem drawValue_answers {ps : List (Particle κ D Exact)} {n : Nat} (arrived : Filter.Arrived v n ps)
    (positive : 0 < n) : Answers (· = v) (drawValue ps : EStateM Failure σ Value) := by
  have real : ∀ w ∈ ps.map (·.weight), w.IsReal := by
    intro w member
    obtain ⟨p, present, rfl⟩ := List.mem_map.mp member
    exact ⟨0, (arrived.each p present).2⟩
  unfold drawValue
  obtain ⟨p, present⟩ := List.exists_mem_of_ne_nil _ (arrived.some_there positive)
  have heavy : ∃ w ∈ ps.map (·.weight), w.IsReal := ⟨_, List.mem_map_of_mem present, 0, (arrived.each p present).2⟩
  apply (Particle.select_answers .multinomial heavy (fun w member => .inl (real w member)) 1).bind
  intro indices _ ⟨long, inside⟩
  obtain ⟨i, rfl⟩ := List.length_eq_one_iff.mp long
  have member : i < ps.length := by simpa using inside
  have came := (arrived.each ps[i] (List.getElem_mem member)).1
  refine .pure ?_
  simp [List.getElem?_eq_getElem member, Trace.value?, came.ending]

omit [AnsweringHost σ D] in
/-- The opening of a program is promising if its scores are real. -/
theorem opening_promising (goes : GoesOn resume v xs entry s) (real : ∀ x ∈ xs, x.IsReal)
    (tries : 1 ≤ c.startAttempts.val) :
    Concludes (Promising resume v) (fun _ => False)
      fun fuel => Kernel.findStart resume fuel entry s (some 1) c.startAttempts := by
  have rests : Rests resume v xs (.start entry s) := Rests.start goes
  apply Kernel.findStart_found tries
  cases xs with
  | nil =>
    refine (Kernel.extend_end rests).imp ?_ fun _ no => no
    intro out ⟨u, same, came, _⟩
    exact ⟨u, same, came.score, .inl came⟩
  | cons x xs =>
    obtain ⟨first, others⟩ := List.forall_mem_cons.mp real
    refine (Kernel.extend_next rests first).imp ?_ fun _ no => no
    intro out ⟨u, same, further, _, _⟩
    exact ⟨u, same, further.score, .inr ⟨xs, others, further⟩⟩

theorem startChain_value (goes : GoesOn resume v xs entry s) (real : ∀ x ∈ xs, x.IsReal)
    (positive : 1 ≤ c.particles) (tries : 1 ≤ c.startAttempts.val) :
    Concludes (Holding resume v c) (fun _ => False) fun fuel => startChain resume fuel c entry s := by
  obtain ⟨remaining, first⟩ := Nat.exists_eq_add_of_le' tries
  simp only [startChain, first, startChain.go]
  apply Concludes.bind (opening_promising goes real tries)
  intro opening promising
  have completes := (complete_value positive promising).unlessDegenerate
  refine Concludes.bind (completes.imp (fun _ holds => holds) fun _ no => no.1) ?_
  intro out completed
  obtain ⟨⟨mass, population⟩, rfl, arrived⟩ | ⟨_, no⟩ := completed
  · exact .pure ⟨promising, arrived⟩
  · exact no.elim

theorem startChain_hopeless (goes : GoesOn resume v xs entry s) (proper : ∀ x ∈ xs, x.Proper)
    (among : .negInf ∈ xs) (positive : 1 ≤ c.particles) (tries : 1 ≤ c.startAttempts.val) :
    Concludes (fun _ => False) (fun e => ∃ fault, e = .inference fault)
      fun fuel => startChain resume fuel c entry s := by
  have rests : Rests resume v xs (.start entry s) := Rests.start goes
  have attempted (remaining number : Nat) : Concludes (fun _ => False) (fun e => ∃ fault, e = .inference fault)
      fun fuel => startChain.go resume fuel c entry s remaining number := by
    induction remaining generalizing number with
    | zero => exact .fail ⟨_, rfl⟩
    | succ remaining ih =>
      cases xs with
      | nil => exact (nomatch among)
      | cons x xs =>
        obtain ⟨first, others⟩ := List.forall_mem_cons.mp proper
        obtain real | rfl := first
        · -- The opening has a score, and its population loses all weight further on.
          have later : .negInf ∈ xs := by
            obtain ⟨y, rfl⟩ := real
            simpa using among
          have opens : Concludes (Rests resume v xs) (fun e => ∃ fault, e = .inference fault)
              fun fuel => Kernel.findStart resume fuel entry s (some 1) c.startAttempts := by
            refine (Kernel.findStart_found tries ?_).imp (fun _ holds => holds) fun _ no => no.elim
            refine (Kernel.extend_next rests real).imp ?_ fun _ no => no
            intro out ⟨u, same, further, _, _⟩
            exact ⟨u, same, further.score, further⟩
          apply Concludes.bind opens
          intro opening further
          have lost := (complete_hopeless positive further others later).unlessDegenerate
          refine Concludes.bind (lost.imp (fun _ holds => holds) fun e other => (other.2 other.1).elim) ?_
          intro out completed
          obtain ⟨_, _, no⟩ | ⟨rfl, _⟩ := completed
          · exact no.elim
          · exact Concludes.bind (.answers (Answers.note _)) fun _ _ => ih (number + 1)
        · have fails : Concludes (fun _ => False) _
              fun fuel => Kernel.findStart resume fuel entry s (some 1) c.startAttempts :=
            Kernel.findStart_none c.startAttempts (Kernel.extend_impossible rests)
          exact Concludes.bind (fails.imp (fun _ no => no) fun e same => ⟨_, same⟩) fun _ no => no.elim
  exact attempted c.startAttempts.val 1

/-- A sweep leaves the chain at some opening with such a population. -/
theorem sweep_value {st : State κ D Exact} (positive : 1 ≤ c.particles) (holding : Holding resume v c st) :
    Concludes (fun out => Holding resume v c out.1) (fun _ => False) fun fuel => sweep resume fuel c st := by
  have proposes (fuel : Nat) : propose resume fuel st.opening =
      (pure (some (st.opening, Score.zero)) : EStateM Failure σ _) := by
    rw [propose, holding.opening.choiceless]
    rfl
  simp only [sweep, proposes, pure_bind]
  have completes := (complete_value positive holding.opening).unlessDegenerate
  refine Concludes.bind (completes.imp (fun _ holds => holds) fun _ no => no.1) ?_
  intro out completed
  obtain ⟨⟨mass, population⟩, rfl, arrived⟩ | ⟨_, no⟩ := completed
  · have some_there : population.isEmpty = false := by simpa using arrived.some_there positive
    simp only [Option.getD_some, some_there, Bool.false_eq_true, if_false]
    apply Concludes.bind (.answers AnsweringHost.logUniform_answers)
    intro u _
    split
    · exact .pure ⟨holding.opening, arrived⟩
    · exact .pure holding
  · exact no.elim

theorem sweeps_value {st : State κ D Exact} {remaining number accepted : Nat} {values : List Value}
    (positive : 1 ≤ c.particles) (holding : Holding resume v c st) (same : ∀ u ∈ values, u = v) :
    Concludes (fun out => (∀ u ∈ out.1, u = v) ∧ out.1.length = remaining + values.length) (fun _ => False)
      fun fuel => sweeps resume fuel c remaining number st values accepted := by
  induction remaining generalizing number st values accepted with
  | zero => exact .pure ⟨same, (Nat.zero_add _).symm⟩
  | succ remaining ih =>
    simp only [sweeps]
    apply Concludes.bind (sweep_value positive holding)
    intro (st, moved) holding
    apply Concludes.bind (.answers (drawValue_answers holding.population positive))
    intro u drawn
    apply Concludes.bind (.answers (Answers.note _))
    intro _ _
    refine (ih holding (List.forall_mem_cons.mpr ⟨drawn, same⟩)).imp ?_ fun _ no => no
    intro out ⟨same, long⟩
    refine ⟨same, ?_⟩
    rw [long, List.length_cons]
    omega

theorem estimate_value (goes : GoesOn resume v xs entry s) (real : ∀ x ∈ xs, x.IsReal)
    (known : v.key = .ok key) (itself : (key == key) = true) (positive : 1 ≤ c.particles)
    (some_asked : 1 ≤ c.sweeps) (tries : 1 ≤ c.startAttempts.val) :
    Concludes (fun M => M.IsPoint v) (fun _ => False) fun fuel => estimate resume fuel c entry s := by
  apply Concludes.bind (startChain_value goes real positive tries)
  intro st holding
  apply Concludes.bind (sweeps_value positive holding (List.forall_mem_nil _))
  intro (values, accepted) ⟨same, long⟩
  have some_there : values.reverse ≠ [] := by
    rw [← List.length_pos_iff, List.length_reverse]
    change values.length = _ at long
    omega
  exact .answers (.lift (Marginal.ofSamples_point known itself some_there (by simpa using same) _) ⟨rfl, rfl⟩)

theorem estimate_hopeless (goes : GoesOn resume v xs entry s) (proper : ∀ x ∈ xs, x.Proper)
    (among : .negInf ∈ xs) (positive : 1 ≤ c.particles) (tries : 1 ≤ c.startAttempts.val) :
    Concludes (fun _ => False) (fun e => ∃ fault, e = .inference fault)
      fun fuel => estimate resume fuel c entry s :=
  Concludes.bind (startChain_hopeless goes proper among positive tries) fun _ no => no.elim

end OpeningChain

namespace Cascade

variable {c : Config} {p : Particle κ D Exact} {pool : Pool κ D Exact} {roots : Nat}

/-- A particle that has absorbed some of the scores, and weighs their sum. -/
def Midway (resume : Resume (EStateM Failure σ) κ D Exact) (v : Value) (xs : List Exact)
    (p : Particle κ D Exact) : Prop :=
  ∃ before left, before ++ left = xs ∧ (∀ x ∈ before, x.IsReal) ∧ p.trace.factors = before.length ∧
    Rests resume v left p.trace ∧ p.weight = before.sum

/-- A particle that has absorbed all of the scores. -/
structure Through (v : Value) (xs : List Exact) (p : Particle κ D Exact) : Prop where
  real : ∀ x ∈ xs, x.IsReal
  came : Came v p.trace
  weight : p.weight = xs.sum

/-- The mean at each factor is the sum of the scores up to there. -/
def Means (xs : List Exact) (arrivals : Arrivals Exact) : Prop :=
  ∀ j n mean, (j, n, mean) ∈ arrivals → n ≠ 0 ∧ mean = (xs.take j).sum

/-- A weight that is the mean already leaves it as it is. -/
theorem runningMean_same {n : Nat} (some_there : n ≠ 0) {w : Exact} (real : w.IsReal) :
    runningMean (some (n, w)) w = (n + 1, w) := by
  obtain ⟨y, rfl⟩ := real
  have positive : (0 : ℝ) < n := Nat.cast_pos.mpr (Nat.pos_of_ne_zero some_there)
  have sum : Real.exp (y + Real.log n) + Real.exp y = (n + 1 : Nat) * Real.exp y := by
    rw [Real.exp_add, Real.exp_log positive]
    push_cast
    ring
  have more : ((n + 1 : Nat) : ℝ) ≠ 0 := Nat.cast_ne_zero.mpr (Nat.succ_ne_zero n)
  rw [runningMean, Exact.logNat_eq some_there, Exact.real_add, Exact.logAddExp_real,
    Exact.logNat_eq (Nat.succ_ne_zero n), Exact.real_sub, sum, Real.log_mul more (Real.exp_ne_zero y), Real.log_exp,
    add_sub_cancel_left]

theorem arrive_mean {arrivals : Arrivals Exact} (means : Means xs arrivals) {j : Nat}
    (real : (xs.take j).sum.IsReal) :
    (arrive arrivals j (xs.take j).sum).1 = (xs.take j).sum ∧ Means xs (arrive arrivals j (xs.take j).sum).2 := by
  have entry : (runningMean (arrivals.lookup j) (xs.take j).sum).1 ≠ 0 ∧
      (runningMean (arrivals.lookup j) (xs.take j).sum).2 = (xs.take j).sum := by
    cases found : arrivals.lookup j with
    | none => exact ⟨Nat.one_ne_zero, rfl⟩
    | some entry =>
      obtain ⟨n, mean⟩ := entry
      obtain ⟨some_there, rfl⟩ := means j n mean (mem_of_lookup found)
      rw [runningMean_same some_there real]
      exact ⟨Nat.succ_ne_zero n, rfl⟩
  refine ⟨entry.2, ?_⟩
  intro i n mean member
  rcases List.mem_cons.mp member with same | old
  · obtain ⟨rfl, same⟩ := Prod.mk.inj same
    rw [← same] at entry
    exact entry
  · exact means i n mean (List.mem_filter.mp old).1

omit [AnsweringHost σ D] in
/-- A particle of average weight has itself for its only child. -/
theorem children_single {w : Exact} (weight : p.weight = w) (real : w.IsReal) (buffered : Nat) :
    Answers (· = [p]) (children c p w buffered : EStateM Failure σ _) := by
  obtain ⟨y, rfl⟩ := real
  have even : p.weight - .real y = .real 0 := by rw [weight, Exact.real_sub, sub_self]
  have heavy : Score.less (Exact.real 0) (Score.zero : Exact) = false := by
    rw [Exact.zero_eq]
    exact decide_eq_false (lt_irrefl 0)
  have once : childCount c (Exact.real 0) buffered = .ok 1 := by
    rw [childCount_eq le_rfl, Real.exp_zero, Nat.floor_one]
    congr 1
    omega
  have share : p.weight - Score.logNat 1 = p.weight := by
    rw [Exact.logNat_eq Nat.one_ne_zero, Nat.cast_one, Real.log_one, Exact.real_zero, sub_zero]
  unfold children
  dsimp only
  rw [even, heavy]
  simp only [Bool.false_eq_true, if_false, once]
  apply (Answers.lift (a := 1) rfl rfl).bind
  intro n _ same
  subst same
  refine .pure ?_
  rw [share]
  rfl

omit [AnsweringHost σ D] in
/-- A particle that runs to its next factor is lost there, arrives with the weight of all factors so
far, or comes to the value. -/
theorem run_midway (proper : ∀ x ∈ xs, x.Proper) (midway : Midway resume v xs p) :
    Concludes (fun fate : Fate κ D Exact =>
        fate = .lost ∧ .negInf ∈ xs ∨ (∃ q, fate = .finished q ∧ Through v xs q) ∨
          ∃ q, fate = .arrived q ∧ Midway resume v xs q ∧
            q.weight = (xs.take q.trace.factors).sum ∧ q.weight.IsReal)
      (fun _ => False) fun fuel => run resume fuel p := by
  obtain ⟨before, left, rfl, absorbed, factors, rests, weight⟩ := midway
  have heavy : p.weight.IsReal := weight ▸ Exact.sum_real absorbed
  cases left with
  | nil =>
    apply Concludes.bind (Particle.advance_end rests heavy)
    intro q ends
    obtain ⟨came, same⟩ := ends
    have alive := Particle.alive_of_real (same ▸ heavy)
    have done : q.trace.done = true := by simp [Trace.done, came.ending]
    simp only [alive, done, Bool.not_true, Bool.false_eq_true, if_false, if_true]
    refine .pure (.inr (.inl ⟨q, rfl, by simpa using absorbed, came, ?_⟩))
    rw [same, weight, List.append_nil]
  | cons x left =>
    have first : x.Proper := proper x (by simp)
    obtain real | rfl := first
    · apply Concludes.bind (Particle.advance_next rests heavy real)
      intro q moved
      obtain ⟨further, gained, count⟩ := moved
      have gained_real : q.weight.IsReal := gained ▸ heavy.add real
      have alive := Particle.alive_of_real gained_real
      obtain ⟨k, ending, _⟩ := further.goes
      have running : q.trace.done = false := by simp [Trace.done, ending]
      simp only [alive, running, Bool.not_true, Bool.false_eq_true, if_false]
      have total : q.weight = (before ++ [x]).sum := by
        rw [gained, weight, List.sum_append, List.sum_singleton]
      have long : q.trace.factors = (before ++ [x]).length := by
        rw [count, factors, List.length_append, List.length_singleton]
      have all : before ++ x :: left = (before ++ [x]) ++ left := by simp
      refine .pure (.inr (.inr ⟨q, rfl, ⟨before ++ [x], left, all.symm, ?_, long, further, total⟩, ?_, gained_real⟩))
      · intro y member
        rcases List.mem_append.mp member with old | new
        · exact absorbed y old
        · obtain rfl := List.mem_singleton.mp new
          exact real
      · rw [total, long, all, List.take_left']
        rfl
    · apply Concludes.bind (Particle.advance_impossible rests heavy)
      intro q lost
      have dead : (!q.alive) = true := by simp [Particle.alive, lost, Score.less, Exact.less, Score.impossible]
      simp only [if_pos dead]
      exact .pure (.inl ⟨rfl, by simp⟩)

omit [AnsweringHost σ D] in
/-- What becomes of a particle: it is lost at an impossible score, or it comes to the value, or it
goes on alone. -/
theorem settle_midway (proper : ∀ x ∈ xs, x.Proper) (midway : Midway resume v xs p) (means : Means xs pool.arrivals) :
    Concludes (fun out => Means xs out.2 ∧ (out.1 = .dead ∧ .negInf ∈ xs ∨
        (∃ q, out.1 = .finished q ∧ Through v xs q) ∨ ∃ q, out.1 = .replaced [q] ∧ Midway resume v xs q))
      (fun _ => False) fun fuel => settle resume fuel c p pool := by
  apply Concludes.bind (run_midway proper midway)
  intro fate fated
  obtain ⟨rfl, among⟩ | ⟨q, rfl, through⟩ | ⟨q, rfl, midway, total, real⟩ := fated
  · exact .pure ⟨means, .inl ⟨rfl, among⟩⟩
  · exact .pure ⟨means, .inr (.inl ⟨q, rfl, through⟩)⟩
  · obtain ⟨mean, means⟩ := arrive_mean means (total ▸ real)
    rw [← total] at mean means
    dsimp only
    rw [mean]
    refine Concludes.bind (.answers (children_single rfl real _)) ?_
    intro born same
    subst same
    exact .pure ⟨means, .inr (.inr ⟨q, rfl, midway⟩)⟩

/-- The pools of a program without choices: at most one particle waits, and each root has come to
the value or still waits, unless it was lost at an impossible score. -/
structure Steady (resume : Resume (EStateM Failure σ) κ D Exact) (v : Value) (xs : List Exact) (c : Config)
    (pool : Pool κ D Exact) (roots : Nat) : Prop where
  waiting : ∀ p ∈ pool.buffer, Midway resume v xs p
  finished : ∀ p ∈ pool.finished, Through v xs p
  count : pool.count = pool.finished.length
  means : Means xs pool.arrivals
  few : pool.count + pool.buffer.length ≤ c.particles.val
  started : .negInf ∉ xs → roots = pool.count + pool.buffer.length

omit [AnsweringHost σ D] in
theorem Steady.into {buffer : List (Particle κ D Exact)} {o : Outcome κ D Exact} {arrivals : Arrivals Exact}
    (steady : Steady resume v xs c { pool with buffer := p :: buffer } roots) (means : Means xs arrivals)
    (becomes : o = .dead ∧ .negInf ∈ xs ∨ (∃ q, o = .finished q ∧ Through v xs q) ∨
      ∃ q, o = .replaced [q] ∧ Midway resume v xs q) :
    Steady resume v xs c (o.into { pool with buffer } arrivals) roots := by
  obtain ⟨waiting, finished, count, old_means, few, started⟩ := steady
  obtain ⟨_, others⟩ := List.forall_mem_cons.mp waiting
  simp only [List.length_cons] at few started
  obtain ⟨rfl, among⟩ | ⟨q, rfl, through⟩ | ⟨q, rfl, midway⟩ := becomes
  · refine ⟨others, finished, count, old_means, ?_, fun absent => (absent among).elim⟩
    change pool.count + buffer.length ≤ _
    omega
  · refine ⟨others, List.forall_mem_cons.mpr ⟨through, finished⟩, congrArg (· + 1) count, old_means, ?_, ?_⟩
    · change pool.count + 1 + buffer.length ≤ _
      omega
    · intro absent
      have before := started absent
      change roots = pool.count + 1 + buffer.length
      omega
  · refine ⟨List.forall_mem_cons.mpr ⟨midway, others⟩, finished, count, means, ?_, ?_⟩
    · exact few
    · exact started

omit [AnsweringHost σ D] in
theorem steady_invariant (goes : GoesOn resume v xs entry s) (proper : ∀ x ∈ xs, x.Proper)
    (fine : Value → Prop) (most : Nat) :
    Invariant resume fine most c (rootAt entry s) (Steady resume v xs c) := by
  constructor
  case start => exact ⟨List.forall_mem_nil _, List.forall_mem_nil _, rfl, nofun, Nat.zero_le _, fun _ => rfl⟩
  case next =>
    intro p buffer pool roots steady _ waiting
    have midway := steady.waiting p (waiting ▸ List.mem_cons_self)
    have settles : Concludes _ _ fun fuel => settle resume fuel c p { pool with buffer } :=
      settle_midway proper midway steady.means
    refine settles.imp ?_ fun _ no => no
    intro out ⟨means, becomes⟩
    have same : pool = { pool with buffer := p :: buffer } := by rw [← waiting]
    rw [same] at steady
    exact steady.into means becomes
  case root =>
    intro pool roots steady _ empty few _
    have midway : Midway resume v xs (rootAt entry s) :=
      ⟨[], xs, rfl, nofun, rfl, Rests.start goes, Exact.zero_eq⟩
    refine (settle_midway (c := c) proper midway steady.means).imp ?_ fun _ no => no
    intro out ⟨means, becomes⟩
    have same : pool = { pool with buffer := [] } := by rw [← empty]
    rw [same]
    refine Steady.into (p := rootAt entry s) ⟨?_, steady.finished, steady.count, steady.means, ?_, ?_⟩ means becomes
    · exact List.forall_mem_cons.mpr ⟨midway, List.forall_mem_nil _⟩
    · exact few
    · intro absent
      have before := steady.started absent
      rw [empty] at before
      change roots + 1 = pool.count + 1
      exact congrArg (· + 1) before

/-- As many roots are started as particles are asked for, and each comes to the value. -/
theorem collect_steady (goes : GoesOn resume v xs entry s) (real : ∀ x ∈ xs, x.IsReal)
    (room : 1 ≤ c.bufferSize) :
    Concludes (fun out => out.1.finished.length = c.particles.val ∧ out.2 = c.particles.val ∧
        ∀ p ∈ out.1.finished, Through v xs p) (fun _ => c.mostRoots < c.particles.val)
      fun fuel => collect resume fuel c entry s := by
  have proper : ∀ x ∈ xs, x.Proper := fun x member => .inl (real x member)
  have possible : .negInf ∉ xs := by
    intro among
    obtain ⟨y, impossible⟩ := real _ among
    cases impossible
  refine (collect_concludes room (goes.terminates proper) (steady_invariant goes proper _ _)).imp ?_ ?_
  · intro out ⟨⟨_, drained, enough, _⟩, steady⟩
    have few := steady.few
    have started := steady.started possible
    have count := steady.count
    rw [drained, List.length_nil] at few started
    exact ⟨by omega, by omega, steady.finished⟩
  · intro e ⟨_, pool, drained, lacking, steady⟩
    have started := steady.started possible
    rw [drained, List.length_nil] at started
    omega

theorem estimate_sum (goes : GoesOn resume v xs entry s) (real : ∀ x ∈ xs, x.IsReal)
    (known : v.key = .ok key) (itself : (key == key) = true) (some_asked : 1 ≤ c.particles.val)
    (room : 1 ≤ c.bufferSize) :
    Concludes (fun M => M.IsPoint v ∧ M.normalization = some xs.sum ∧
        M.diagnostics.lookup "roots" = some (.count c.particles.val))
      (fun _ => c.mostRoots < c.particles.val) fun fuel => estimate resume fuel c entry s := by
  refine Concludes.bind (collect_steady goes real room) ?_
  intro (pool, roots) ⟨long, started, through⟩
  dsimp only at long started through
  obtain ⟨total, sum⟩ := Exact.sum_real real
  have weights : ∀ w ∈ pool.finished.reverse.map (·.weight), w = .real total := by
    intro w member
    obtain ⟨p, present, rfl⟩ := List.mem_map.mp member
    rw [(through p (List.mem_reverse.mp present)).weight, sum]
  have some_there : pool.finished.reverse.map (·.weight) ≠ [] := by
    rw [← List.length_pos_iff]
    rw [List.length_map, List.length_reverse, long]
    exact some_asked
  have mean := Exact.logMean_same some_there weights
  have many : (pool.finished.reverse.map (·.weight)).length = roots := by simp [long, started]
  rw [many] at mean
  have values : ∀ u ∈ pool.finished.reverse.map fun p => p.trace.value?.getD .absent, u = v := by
    intro u member
    obtain ⟨p, present, rfl⟩ := List.mem_map.mp member
    simp [Trace.value?, (through p (List.mem_reverse.mp present)).came.ending]
  have point := Marginal.ofLogWeights_point known itself some_there
    (fun w member => ⟨total, weights w member⟩) (by simp) values
  simp only [conclude, mean, ← sum]
  refine Concludes.bind (.answers (Answers.note _)) fun _ _ => .answers (.lift (point _ _ _) ⟨⟨rfl, rfl⟩, rfl, ?_⟩)
  rw [started]
  rfl

theorem estimate_hopeless (goes : GoesOn resume v xs entry s) (proper : ∀ x ∈ xs, x.Proper)
    (among : .negInf ∈ xs) (some_asked : 1 ≤ c.particles.val) (room : 1 ≤ c.bufferSize) :
    Concludes (fun _ => False) (fun e => ∃ fault, e = .inference fault)
      fun fuel => estimate resume fuel c entry s := by
  have collects : Concludes (fun _ => False) (fun e => ∃ fault, e = .inference fault)
      fun fuel => collect resume fuel c entry s := by
    refine (collect_concludes room (goes.terminates proper) (steady_invariant goes proper _ _)).imp ?_ ?_
    · intro out ⟨⟨_, _, enough, _⟩, steady⟩
      cases finished : out.1.finished with
      | nil =>
        have count := steady.count
        rw [finished, List.length_nil] at count
        omega
      | cons p rest =>
        have through := steady.finished p (finished ▸ List.mem_cons_self)
        obtain ⟨y, impossible⟩ := through.real _ among
        cases impossible
    · intro e ⟨⟨_, _, _, _, _, same⟩, _⟩
      exact ⟨_, same⟩
  exact Concludes.bind collects fun _ no => no.elim

end Cascade

end ProbCore
