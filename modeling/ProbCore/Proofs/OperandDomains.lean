import ProbCore.Proofs.CascadeBranching
import ProbCore.Proofs.EffectiveSize
import ProbCore.Proofs.ImpossibleEvidence
import ProbCore.Proofs.OpeningStates

/-! The operands of the strategies' own arithmetic. Logarithms are taken of counts, totals are divided by, and
greatest members are looked for. What keeps these from zero and from nothing stands elsewhere: a test that ends
the run before, or a setting that was refused when the strategy was made. -/

namespace ProbCore

open Kernel

namespace Kernel

section

variable {σ κ D R : Type} [Host (EStateM Failure σ) D R] [Score R] [SoundHost σ D R]
  {resume : Resume (EStateM Failure σ) κ D R} {fuel : Nat} {limit : Option Nat} {t t' : Trace κ D R} {r : R}

omit [SoundHost σ D R] in
/-- What the kernel makes has all the choices that it began with. -/
theorem Makes.length_le {old : Option (Trace κ D R)} {tape : Recording κ D R} {step : Step κ D R}
    {out : Recorded κ D R} (makes : Makes resume limit old tape step out) :
    tape.choices.length ≤ out.trace.choices.length := by
  induction makes with
  | exit | suspend => exact (List.length_reverse).ge
  | factor _ _ _ _ ih => exact ih
  | choice _ _ _ _ _ ih => exact (Nat.le_succ _).trans ih

/-- Both counts whose logarithms a proposal is weighed with. -/
theorem regenerate_counts (yields : Yields (regenerate resume fuel t limit) (some (t', r))) :
    1 ≤ t.choices.length ∧ 1 ≤ t'.choices.length := by
  obtain ⟨before, c, after, v, lp, step, out, reused, fresh, parts, _, _, _, _, makes, rfl⟩ :=
    regenerate_makes yields
  refine ⟨?_, (Nat.succ_le_succ (Nat.zero_le _)).trans makes.length_le⟩
  rw [parts, List.length_append, List.length_cons]
  omega

end

end Kernel

namespace Rejection

variable {σ κ D R : Type} [Host (EStateM Failure σ) D R] [Score R] [SoundHost σ D R]
  {resume : Resume (EStateM Failure σ) κ D R} {fuel : Nat} {c : Config R} {entry : κ} {s : Store}

/-- No sample is accepted without an attempt. -/
theorem collect_attempts_pos {remaining made count : Nat} {accepted : List Value} {out : List Value × Nat}
    (yields : Yields (collect resume fuel c entry s remaining made accepted count) out) :
    made ≤ out.2 ∧ (count < c.samples.val → made < out.2) := by
  obtain ⟨count', ⟨more, alone⟩, enough⟩ := collect_keeps
    (fun made' _ count' => made ≤ made' ∧ (made' = made → count' = count))
    (fun _ made' _ _ _ before _ => ⟨before.1.trans (Nat.le_succ made'), fun same => absurd before.1 (by omega)⟩)
    ⟨le_rfl, fun _ => rfl⟩ yields
  exact ⟨more, fun few => more.lt_of_ne fun same => absurd (alone same.symm) (by omega)⟩

end Rejection

namespace Filter

variable {σ κ D : Type} [Host (EStateM Failure σ) D Exact] {resume : Resume (EStateM Failure σ) κ D Exact}
  {entry : κ} {s : Store} {fuel limit : Nat} {c : Config} {p q : Particle κ D Exact}
  {ps qs : List (Particle κ D Exact)}

/-- A population that can be weighed. It has members, so that its mean is taken over some. If its mean is known,
its total is not zero, which effective size and resampling divide by, and some member is alive. If not all its
members are finished, there is a furthest factor among those that are not. -/
structure Weighable (qs : List (Particle κ D Exact)) : Prop where
  some_there : 1 ≤ qs.length
  massive {mean : Exact} (known : Particle.logMeanWeight qs = .ok mean) : 0 < Exact.mass (qs.map (·.weight))
  alive {mean : Exact} (known : Particle.logMeanWeight qs = .ok mean) : qs.filter Particle.alive ≠ []
  unfinished (running : qs.all Particle.finished = false) : (qs.filter fun p => !p.finished) ≠ []

/-- Members of a population on their way: executions of the program, with real weights unless they are dead. -/
def Underway (resume : Resume (EStateM Failure σ) κ D Exact) (entry : κ) (s : Store)
    (ps : List (Particle κ D Exact)) : Prop :=
  ps ≠ [] ∧ ∀ p ∈ ps, Made True resume entry s p.trace ∧ (p.weight.IsReal ∨ p.weight = .negInf)

theorem Underway.weighable (underway : Underway resume entry s qs) : Weighable qs where
  some_there := List.length_pos_iff.mpr underway.1
  massive known := by
    obtain ⟨p, member, real⟩ := alive_of_mean (fun p member => (underway.2 p member).2) known
    exact Exact.mass_pos_of_real ⟨_, List.mem_map_of_mem member, real⟩
  alive known := by
    obtain ⟨p, member, x, weight⟩ := alive_of_mean (fun p member => (underway.2 p member).2) known
    have alive : p.alive = true := by
      rw [Particle.alive, weight]
      rfl
    exact List.ne_nil_of_mem (List.mem_filter.mpr ⟨member, alive⟩)
  unfinished running := by
    obtain ⟨p, member, waits⟩ := List.all_eq_false.mp running
    exact List.ne_nil_of_mem (List.mem_filter.mpr ⟨member, by simpa using waits⟩)

variable [SoundHost σ D Exact]

/-- An advance adds a difference of real likelihoods, or nothing is left. -/
theorem advance_weight (tempered : Tempered resume (Takes σ) entry s) (made : Made True resume entry s p.trace)
    (weight : p.weight.IsReal ∨ p.weight = .negInf) (yields : Yields (p.advance resume fuel) q) :
    q.weight.IsReal ∨ q.weight = .negInf := by
  rcases p.advance_cases yields with ⟨_, rfl⟩ | ⟨_, ⟨_, rfl⟩ | ⟨t, ran, rfl⟩⟩
  · exact weight
  · exact .inr rfl
  · obtain ⟨x, before⟩ := made.likelihood_real takes_chooses tempered
    obtain ⟨y, after⟩ := (made.extend ran).likelihood_real takes_chooses tempered
    change (p.weight + (t.likelihood - p.trace.likelihood)).IsReal ∨
      p.weight + (t.likelihood - p.trace.likelihood) = _
    rw [before, after, Exact.real_sub]
    rcases weight with ⟨w, weight⟩ | weight
    · exact .inl ⟨w + (y - x), by rw [weight, Exact.real_add]⟩
    · exact .inr (by rw [weight]; rfl)

theorem Underway.advance (tempered : Tempered resume (Takes σ) entry s) (underway : Underway resume entry s ps)
    (yields : Yields (ps.mapM (Particle.advance resume fuel)) qs) : Underway resume entry s qs := by
  refine ⟨?_, fun q member => ?_⟩
  · rw [← List.length_pos_iff, yields.mapM_length]
    exact List.length_pos_iff.mpr underway.1
  · obtain ⟨p, present, ran⟩ := yields.mapM_mem q member
    obtain ⟨made, weight⟩ := underway.2 p present
    exact ⟨p.advance_made made ran, advance_weight tempered made weight ran⟩

theorem Underway.resample (counted : Counted σ) (underway : Underway resume entry s ps)
    (yields : Yields (resample c ps : EStateM Failure σ _) qs) : Underway resume entry s qs := by
  obtain ⟨indices, selected, yields⟩ := Yields.bind yields
  have weights : ps.map (·.weight) ≠ [] := by simpa using underway.1
  obtain ⟨count, inside⟩ := select_members counted weights selected
  have found : ∀ i ∈ indices, ∃ p, ps[i]? = some p := fun i member =>
    ⟨_, List.getElem?_eq_getElem (by simpa using inside i member)⟩
  rw [yields.pure]
  refine ⟨?_, fun q member => ?_⟩
  · have some_index : indices ≠ [] := by
      rw [← List.length_pos_iff, count]
      exact List.length_pos_iff.mpr underway.1
    obtain ⟨i, rest, rfl⟩ := List.exists_cons_of_ne_nil some_index
    obtain ⟨p, here⟩ := found i List.mem_cons_self
    rw [List.filterMap_cons, here]
    exact List.cons_ne_nil _ _
  · obtain ⟨i, _, there⟩ := List.mem_filterMap.mp member
    obtain ⟨p, here, rfl⟩ := Option.map_eq_some_iff.mp there
    exact ⟨(underway.2 p (List.mem_of_getElem? here)).1, .inl ⟨0, Exact.zero_eq⟩⟩

omit [SoundHost σ D Exact] in
theorem Underway.moveAll (underway : Underway resume entry s ps) (yields : Yields (moveAll resume fuel c limit ps) qs) :
    Underway resume entry s qs := by
  have made := moveAll_made (fun _ => trivial) (fun p present => (underway.2 p present).1) yields
  refine ⟨?_, fun q member => ⟨made q member, ?_⟩⟩
  · rw [← List.length_pos_iff, moveAll_length yields]
    exact List.length_pos_iff.mpr underway.1
  · unfold Filter.moveAll at yields
    split at yields
    next =>
      rw [yields.pure] at member
      exact (underway.2 q member).2
    next =>
      obtain ⟨p, present, moved⟩ := yields.mapM_mem q member
      obtain ⟨t, _, moved⟩ := Yields.bind moved
      rw [moved.pure]
      exact (underway.2 p present).2

theorem Filters.underway (tempered : Tempered resume (Takes σ) entry s) (counted : Counted σ)
    (begun : Underway resume entry s ps) {phase : Phase} {r : Nat} (filters : Filters resume fuel c ps phase r qs) :
    Underway resume entry s qs := by
  induction filters with
  | start => exact begun
  | advance _ yields ih => exact ih.advance tempered yields
  | resample _ _ yields ih => exact ih.resample counted yields
  | rejuvenate _ yields ih => exact ih.moveAll yields

/-- Every population that a filter weighs, from copies of one execution, can be weighed. -/
theorem Filters.weighable (tempered : Tempered resume (Takes σ) entry s) (counted : Counted σ) {count r : Nat}
    (some_asked : 1 ≤ count) {t : Trace κ D Exact} (made : Made True resume entry s t)
    (filters : Filters resume fuel c (List.replicate count ⟨t, Score.zero⟩) .advanced r qs) : Weighable qs := by
  refine (filters.underway tempered counted ⟨?_, fun p member => ?_⟩).weighable
  · exact List.ne_nil_of_length_pos (by rw [List.length_replicate]; exact some_asked)
  · rw [List.eq_of_mem_replicate member]
    exact ⟨made, .inl ⟨0, Exact.zero_eq⟩⟩

end Filter

namespace Cascade

section

variable {σ κ D R : Type} [Host (EStateM Failure σ) D R] [Score R] [SoundHost σ D R]
  {resume : Resume (EStateM Failure σ) κ D R} {c : Config} {root : Particle κ D R} {pool : Pool κ D R}
  {roots fuel steps : Nat} {log : List (Handled κ D R)} {out : Pool κ D R × Nat}

/-- What a schedule ends with is a pool that it can have, with enough particles finished. -/
theorem schedule_scheduled (scheduled : Scheduled resume c root log pool roots)
    (yields : Yields (schedule resume steps c root fuel pool roots) out) :
    (∃ log, Scheduled resume c root log out.1 out.2) ∧ c.particles.val ≤ out.1.count := by
  induction fuel generalizing pool roots log with
  | zero => exact yields.not_fail
  | succ fuel ih =>
    unfold schedule at yields
    cases waiting : pool.buffer with
    | cons p buffer =>
      rw [waiting] at yields
      obtain ⟨next, processed, yields⟩ := Yields.bind yields
      rw [process_eq] at processed
      obtain ⟨⟨o, arrivals⟩, settles, processed⟩ := processed.bind
      rw [processed.pure] at yields
      exact ih (scheduled.next waiting settles) yields
    | nil =>
      rw [waiting] at yields
      dsimp only at yields
      split at yields
      next enough =>
        rw [yields.pure]
        exact ⟨⟨log, scheduled⟩, enough⟩
      next few =>
        split at yields
        next => exact yields.not_fail
        next room =>
          obtain ⟨next, processed, yields⟩ := Yields.bind yields
          rw [process_eq] at processed
          obtain ⟨⟨o, arrivals⟩, settles, processed⟩ := processed.bind
          rw [processed.pure] at yields
          exact ih (scheduled.root waiting (not_le.mp few) (not_le.mp room) settles) yields

end

variable {σ κ D : Type} [Host (EStateM Failure σ) D Exact] [SoundHost σ D Exact]
  {resume : Resume (EStateM Failure σ) κ D Exact} {entry : κ} {s : Store} {c : Config} {p q : Particle κ D Exact}
  {pool : Pool κ D Exact} {fuel roots : Nat} {log : List (Handled κ D Exact)} {o : Outcome κ D Exact}
  {arrivals : Arrivals Exact}

/-- Finished particles come from roots. -/
theorem collect_roots {out : Pool κ D Exact × Nat}
    (some_asked : 1 ≤ c.particles.val)
    (yields : Yields (collect resume fuel c entry s) out) : 1 ≤ out.2 := by
  obtain ⟨⟨log, scheduled⟩, enough⟩ := schedule_scheduled .start yields
  by_contra none_started
  have unstarted := scheduled.unstarted (by omega)
  omega

/-- The running means are of some weights, and what waits are executions of the program with real weights. -/
structure Stocked (resume : Resume (EStateM Failure σ) κ D Exact) (entry : κ) (s : Store) (pool : Pool κ D Exact) :
    Prop where
  averages : Averages pool.arrivals
  waiting : ∀ p ∈ pool.buffer, Made True resume entry s p.trace ∧ p.weight.IsReal

theorem run_arrived (tempered : Tempered resume (Filter.Takes σ) entry s) (made : Made True resume entry s p.trace)
    (real : p.weight.IsReal) (yields : Yields (run resume fuel p) (.arrived q)) :
    Made True resume entry s q.trace ∧ q.weight.IsReal := by
  obtain ⟨q', advanced, yields⟩ := Yields.bind yields
  split at yields
  next => cases yields.pure
  next alive =>
    split at yields
    next => cases yields.pure
    next =>
      cases yields.pure
      have weighs := Filter.advance_weight tempered made (.inl real) advanced
      refine ⟨p.advance_made made advanced, weighs.resolve_right ?_⟩
      intro weight
      rw [Particle.alive, weight] at alive
      exact alive rfl

omit [SoundHost σ D Exact] in
/-- A child has the trace of its parent, and a real weight. -/
theorem children_stocked {mean : Exact} {buffered : Nat} {born : List (Particle κ D Exact)} (weight : q.weight.IsReal)
    (average : mean.IsReal) (made : Made True resume entry s q.trace)
    (yields : Yields (children c q mean buffered : EStateM Failure σ _) born) :
    ∀ child ∈ born, Made True resume entry s child.trace ∧ child.weight.IsReal := by
  obtain ⟨w, weight⟩ := weight
  obtain ⟨y, rfl⟩ := average
  exact fun child member => ⟨children_share yields child member ▸ made, children_real weight yields child member⟩

theorem Stocked.settled (stocked : Stocked resume entry s pool) (tempered : Tempered resume (Filter.Takes σ) entry s)
    (made : Made True resume entry s p.trace) (real : p.weight.IsReal)
    (settles : Yields (settle resume fuel c p pool) (o, arrivals)) : Stocked resume entry s (o.into pool arrivals) := by
  obtain ⟨fate, ran, yields⟩ := Yields.bind settles
  cases fate with
  | lost | finished =>
    cases yields.pure
    exact ⟨stocked.averages, stocked.waiting⟩
  | arrived q =>
    obtain ⟨traced, weight⟩ := run_arrived tempered made real ran
    obtain ⟨average, averages⟩ := arrive_averages stocked.averages weight q.trace.factors
    obtain ⟨born, drawn, yields⟩ := Yields.bind yields
    cases yields.pure
    refine ⟨averages, fun child member => ?_⟩
    rcases List.mem_append.mp member with new | old
    · exact children_stocked weight average traced drawn child (List.mem_reverse.mp new)
    · exact stocked.waiting child old

theorem Scheduled.stocked (tempered : Tempered resume (Filter.Takes σ) entry s)
    (scheduled : Scheduled resume c ⟨.start entry s, Score.zero⟩ log pool roots) : Stocked resume entry s pool := by
  induction scheduled with
  | start => exact ⟨nofun, nofun⟩
  | @next log pool roots fuel p buffer o arrivals before waiting settles ih =>
    have stocked := ih.waiting
    rw [waiting] at stocked
    obtain ⟨⟨made, real⟩, rest⟩ := List.forall_mem_cons.mp stocked
    have next : Stocked resume entry s { pool with buffer } := ⟨ih.averages, rest⟩
    exact next.settled tempered made real settles
  | root before empty few room settles ih => exact ih.settled tempered .start ⟨0, Exact.zero_eq⟩ settles

/-- What arrives next: the means are over some weights, before it is counted and after, and it has a child if it is
not light. -/
structure Branches (c : Config) (pool : Pool κ D Exact) (q : Particle κ D Exact) : Prop where
  seen : ∀ entry ∈ pool.arrivals, 1 ≤ entry.2.1
  counted : ∀ entry ∈ (arrive pool.arrivals q.trace.factors q.weight).2, 1 ≤ entry.2.1
  born (heavy : Score.less (q.weight - (arrive pool.arrivals q.trace.factors q.weight).1) Score.zero = false) :
    ∀ buffered, ∃ n, 1 ≤ n ∧
      childCount c (q.weight - (arrive pool.arrivals q.trace.factors q.weight).1) buffered = .ok n

omit [Host (EStateM Failure σ) D Exact] [SoundHost σ D Exact] in
theorem branches_of_real (averages : Averages pool.arrivals) (real : q.weight.IsReal) : Branches c pool q where
  seen entry member := Nat.one_le_iff_ne_zero.mpr (averages entry.1 entry.2.1 entry.2.2 member).1
  counted entry member := by
    obtain ⟨_, averages⟩ := arrive_averages averages real q.trace.factors
    exact Nat.one_le_iff_ne_zero.mpr (averages entry.1 entry.2.1 entry.2.2 member).1
  born heavy buffered := by
    obtain ⟨mean, _⟩ := arrive_averages averages real q.trace.factors
    obtain ⟨r, ratio⟩ := real.sub mean
    rw [ratio] at heavy ⊢
    rw [Exact.zero_eq] at heavy
    have above : 0 ≤ r := not_lt.mp (of_decide_eq_false heavy)
    exact ⟨_, one_le_children above _, childCount_eq above buffered⟩

end Cascade

section

variable {σ κ D : Type} [Host (EStateM Failure σ) D Exact] [SoundHost σ D Exact]

/-- The openings that the inner filter of a chain over openings is run from. -/
inductive OpeningChain.Completed (resume : Resume (EStateM Failure σ) κ D Exact) (fuel : Nat)
    (c : OpeningChain.Config) (entry : κ) (s : Store) : Trace κ D Exact → Prop where
  | start {t} (found : Yields (findStart resume fuel entry s (some 1) c.startAttempts) t) :
      Completed resume fuel c entry s t
  | proposed {st t r} (visited : OpeningChain.Visited resume fuel c entry s st)
      (yields : Yields (OpeningChain.propose resume fuel st.opening) (some (t, r))) :
      Completed resume fuel c entry s t

/-- The operands of a strategy's own arithmetic, in an estimate, are within their domains. -/
def Strategy.InDomain (resume : Resume (EStateM Failure σ) κ D Exact) (fuel : Nat) (entry : κ) (s : Store) :
    Strategy Exact → Prop
  | .enumerate _ => True
  | .rejection c => ∀ out, Yields (Rejection.collect resume fuel c entry s c.attempts.val 0 [] 0) out → 1 ≤ out.2
  | .mcmc c => 1 ≤ c.steps
  | .smc c => ∀ r qs,
      Filter.Filters resume fuel c (List.replicate c.particles ⟨.start entry s, Score.zero⟩) .advanced r qs →
        Filter.Weighable qs
  | .pmcmc c => 1 ≤ c.sweeps ∧ (∀ st, OpeningChain.Visited resume fuel c entry s st → st.population ≠ []) ∧
      ∀ t, OpeningChain.Completed resume fuel c entry s t → ∀ r qs,
        Filter.Filters resume fuel c.filter (List.replicate c.particles ⟨t, Score.zero⟩) .advanced r qs →
          Filter.Weighable qs
  | .asyncpf c =>
    (∀ log pool roots, Cascade.Scheduled resume c ⟨.start entry s, Score.zero⟩ log pool roots →
      ∀ p q steps, p ∈ pool.buffer ∨ p = ⟨.start entry s, Score.zero⟩ →
        Yields (Cascade.run resume steps p) (.arrived q) → Cascade.Branches c pool q) ∧
    ∀ out, Yields (Cascade.collect resume fuel c entry s) out → 1 ≤ out.2

variable {resume : Resume (EStateM Failure σ) κ D Exact} {entry : κ} {s : Store}

/-- In exact arithmetic no strategy takes a logarithm of zero, divides by zero or looks for the greatest of none,
for programs whose factors are never infinitely likely and whose choices have finite or impossible densities:
in every estimate, and in every proposal from any trace. -/
theorem operands_in_domain (tempered : Tempered resume (Filter.Takes σ) entry s) (counted : Filter.Counted σ)
    (st : Strategy Exact) (accepted : st.Accepted) (fuel : Nat) :
    st.InDomain resume fuel entry s ∧
    ∀ t limit t' r, Yields (regenerate resume fuel t limit) (some (t', r)) →
      1 ≤ t.choices.length ∧ 1 ≤ t'.choices.length := by
  refine ⟨?_, fun t limit t' r yields => regenerate_counts yields⟩
  cases st with
  | enumerate c => trivial
  | rejection c =>
    intro out yields
    exact (Rejection.collect_attempts_pos yields).2 accepted.1
  | mcmc c => exact Nat.le_add_left_of_le (Nat.mul_pos accepted.1 accepted.2)
  | smc c => exact fun r qs filters => filters.weighable tempered counted accepted .start
  | pmcmc c =>
    refine ⟨accepted.2, fun st visited => (visited.opened.consistent tempered).some_left, ?_⟩
    intro t completed r qs filters
    refine filters.weighable tempered counted accepted.1 ?_
    cases completed with
    | start found => exact .findStart found
    | proposed visited yields =>
      rcases OpeningChain.propose_cases yields with ⟨_, rfl, _⟩ | ⟨_, ran, _⟩
      · exact visited.opened.made
      · exact visited.opened.made.regenerate trivial ran
  | asyncpf c =>
    refine ⟨?_, fun out yields => Cascade.collect_roots accepted.1 yields⟩
    intro log pool roots scheduled p q steps next ran
    have stocked := scheduled.stocked tempered
    have started : Made True resume entry s p.trace ∧ p.weight.IsReal := by
      rcases next with waits | rfl
      · exact stocked.waiting p waits
      · exact ⟨.start, 0, Exact.zero_eq⟩
    exact Cascade.branches_of_real stocked.averages (Cascade.run_arrived tempered started.1 started.2 ran).2

end

section

open OpeningChain ProbCore.Filter

/-- A chain over openings that starts at the first factor after heads has a population to draw from. -/
theorem heads_drawn_from : ∃ st, Visited headsResume 3 ⟨1, 1, .count 1⟩ 0 .empty st ∧ st.population ≠ [] := by
  obtain ⟨st, visited, _⟩ := heads_visited
  exact ⟨st, visited, (operands_in_domain headsWeighed_tempered careful_counted (.pmcmc ⟨1, 1, .count 1⟩)
    ⟨le_rfl, le_rfl⟩ 3).1.2.1 st visited⟩

/-- With doubles the sum of finite scores need not be finite, and a chain can start with nothing to draw from. -/
theorem huge_factors_emptied : Score.isFinite huge = true ∧
    ∃ st, Visited hugeResume 4 ⟨1, 1, .count 1⟩ 0 .empty st ∧ st.population = [] :=
  ⟨by decide +kernel, huge_starts⟩

end

end ProbCore
