import ProbCore.Proofs.CascadeSchedule
import ProbCore.Proofs.FiniteExecutions
import ProbCore.Proofs.StraightFilter

/-! The loop of a filter, taken round by round. A round advances the population once; it ends the
loop, or draws the population anew for the next round. Since the particles move in lockstep, a program
with few factors is filtered in few rounds, and a program whose executions come to an end is filtered
to the end. -/

namespace ProbCore.Filter

open Kernel

/-- Where a filter stands between two rounds. -/
structure Standing (κ D R : Type) where
  population : List (Particle κ D R)
  mass : R
  report : Report R

/-- What a round leaves: the outcome of the filter, or its standing for the next round. -/
inductive After (κ D R : Type) where
  | ended (out : Outcome κ D R)
  | due (next : Standing κ D R)

section

variable {m : Type → Type} {κ D R : Type} [Monad m] [Host m D R] [Score R]

def round (resume : Resume m κ D R) (steps : Nat) (c : Config) (st : Standing κ D R) :
    m (After κ D R) := do
  let ps ← st.population.mapM (Particle.advance resume steps)
  let mass := st.mass + (← Host.lift (Particle.logMeanWeight ps))
  if ps.all Particle.finished then return .ended ⟨mass, ps.filter Particle.alive, st.report⟩
  else
    let size := Score.effectiveSize (ps.map (·.weight))
    let report := ⟨st.report.rounds + 1, Score.least st.report.leastSize size⟩
    let drawn ← resample c ps
    let moved ← moveAll resume steps c (frontline ps) drawn
    Host.note (.filterRound report.rounds (Score.toFloat mass))
    return .due ⟨moved, mass, report⟩

/-- The loop is one round after another. -/
theorem rounds_round [LawfulMonad m] (resume : Resume m κ D R) (steps fuel : Nat) (c : Config)
    (st : Standing κ D R) :
    rounds resume steps c (fuel + 1) st.population st.mass st.report = (do
      match ← round resume steps c st with
      | .ended out => return out
      | .due next => rounds resume steps c fuel next.population next.mass next.report) := by
  rw [rounds_succ, round, bind_assoc]
  congr 1
  funext ps
  by_cases finished : ps.all Particle.finished = true
  · simp only [if_pos finished, bind_assoc, pure_bind]
  · simp only [if_neg finished, bind_assoc, pure_bind]

end

variable {σ κ D : Type} [Host (EStateM Failure σ) D Exact]

/-- A run of the loop from a state of the host, with the number of its rounds. It ends with the
outcome of its last round, or with the failure of a part of it. -/
inductive Loops (resume : Resume (EStateM Failure σ) κ D Exact) (steps : Nat) (c : Config) :
    Nat → Standing κ D Exact → σ → EStateM.Result Failure σ (Outcome κ D Exact) → Prop where
  | ends {st w out w'} (last : round resume steps c st w = .ok (.ended out) w') :
      Loops resume steps c 1 st w (.ok out w')
  | fails {st w e w'} (last : round resume steps c st w = .error e w') :
      Loops resume steps c 1 st w (.error e w')
  | next {n st next w w' r} (first : round resume steps c st w = .ok (.due next) w')
      (rest : Loops resume steps c n next w' r) : Loops resume steps c (n + 1) st w r

section

variable {resume : Resume (EStateM Failure σ) κ D Exact} {entry : κ} {s : Store} {most steps : Nat}
  {c : Config} {population : List (Particle κ D Exact)} {st : Standing κ D Exact}

/-- What a round is made of. -/
theorem round_cases {after : After κ D Exact} (yields : Yields (round resume steps c st) after) :
    ∃ ps, Yields (st.population.mapM (Particle.advance resume steps)) ps ∧
      ((∃ out, after = .ended out ∧ ps.all Particle.finished = true ∧
        out.survivors = ps.filter Particle.alive) ∨
      ∃ next drawn, after = .due next ∧ ps.all Particle.finished = false ∧
        Yields (resample c ps : EStateM Failure σ _) drawn ∧
        Yields (moveAll resume steps c (frontline ps) drawn) next.population) := by
  obtain ⟨ps, advanced, yields⟩ := Yields.bind yields
  obtain ⟨mass, _, yields⟩ := yields.bind
  refine ⟨ps, advanced, ?_⟩
  split at yields
  next finished =>
    obtain rfl := yields.pure
    exact .inl ⟨_, rfl, finished, rfl⟩
  next unfinished =>
    obtain ⟨drawn, resampled, yields⟩ := yields.bind
    obtain ⟨moved, rejuvenated, yields⟩ := yields.bind
    obtain ⟨_, _, yields⟩ := yields.bind
    obtain rfl := yields.pure
    exact .inr ⟨_, drawn, rfl, by simpa using unfinished, resampled, rejuvenated⟩

variable {r : Nat}

/-- A round takes the filter through all its phases once. -/
theorem Filters.round (filters : Filters resume steps c population .due r st.population) :
    (∀ out, Yields (Filter.round resume steps c st) (.ended out) →
      ∃ ps, Filters resume steps c population .advanced (r + 1) ps ∧
        ps.all Particle.finished = true ∧ out.survivors = ps.filter Particle.alive) ∧
    ∀ next, Yields (Filter.round resume steps c st) (.due next) →
      Filters resume steps c population .due (r + 1) next.population := by
  refine ⟨fun out yields => ?_, fun next yields => ?_⟩
  · obtain ⟨ps, advanced, ⟨_, same, finished, survive⟩ | ⟨_, _, other, _⟩⟩ := round_cases yields
    · cases same
      exact ⟨ps, filters.advance advanced, finished, survive⟩
    · cases other
  · obtain ⟨ps, advanced, ⟨_, other, _⟩ | ⟨_, drawn, same, unfinished, resampled, moved⟩⟩ := round_cases yields
    · cases other
    · cases same
      exact ((filters.advance advanced).resample unfinished resampled).rejuvenate moved

variable [SoundHost σ D Exact] {t : Trace κ D Exact}

/-- With fuel for as many rounds as the program has factors left, and one, the loop runs out of
rounds before it runs out of fuel. -/
theorem Filters.loops (bounded : Bounded resume entry s most) (selective : Selective σ c.resampling)
    (made : Made True resume entry s t) {count fuel : Nat}
    (filters : Filters resume steps c (List.replicate count ⟨t, 0⟩) .due r st.population)
    (enough : most < t.factors + r + fuel) (w : σ) :
    ∃ n, n + (t.factors + r) ≤ most + 1 ∧
      Loops resume steps c n st w (rounds resume steps c fuel st.population st.mass st.report w) := by
  have few := (filters.aligned bounded selective made).1
  induction fuel generalizing r st w with
  | zero => omega
  | succ fuel ih =>
    rw [rounds_round]
    cases ran : Filter.round resume steps c st w with
    | error e w' =>
      rw [bind_of_error ran]
      exact ⟨1, by omega, .fails ran⟩
    | ok after w' =>
      rw [bind_of_ok ran]
      cases after with
      | ended out => exact ⟨1, by omega, .ends ran⟩
      | due next =>
        have filters := filters.round.2 next ⟨w, w', ran⟩
        have few := (filters.aligned bounded selective made).1
        obtain ⟨n, less, loops⟩ := ih filters (by omega) w' few
        exact ⟨n + 1, by omega, .next ran loops⟩

omit [SoundHost σ D Exact] in
theorem Advanced.proper {limit : Nat} {p : Particle κ D Exact} (advanced : Advanced resume entry s limit p) :
    p.weight.Proper := by
  cases advanced with
  | dead weight => exact .inr weight
  | done finished before weight => exact .inl ⟨0, weight⟩
  | @suspended k xs x ending factors count reaches weight => exact .inl ⟨x, weight⟩

variable [LawfulHost σ D Exact] {allowed : Failure → Prop}

theorem advance_ceases (begins : Ceasing resume allowed entry s .absent) {p : Particle κ D Exact}
    (made : Made True resume entry s p.trace) :
    Concludes (fun _ => True) allowed fun fuel => p.advance resume fuel := by
  unfold Particle.advance
  split
  next => exact .pure trivial
  next =>
    refine Concludes.bind (extend_ceases (made.ceasing begins).1) fun out _ => ?_
    split
    · exact .pure trivial
    · exact .pure trivial

variable [AnsweringHost σ D]

theorem moveTrace_ceases (begins : Ceasing resume allowed entry s .absent) {limit : Nat} (moves : Nat)
    (made : Made True resume entry s t) :
    Concludes (fun _ => True) allowed fun fuel => moveTrace resume fuel limit moves t := by
  induction moves generalizing t with
  | zero => exact .pure trivial
  | succ moves ih =>
    refine Concludes.bind (Concludes.seen (move_ceases (made.ceasing begins).2)) fun moved ran => ?_
    obtain ⟨_, _, ran⟩ := ran
    exact ih (made.move trivial ran)

/-- The moves of a population come to their end. -/
theorem moveAll_ceases (begins : Ceasing resume allowed entry s .absent) (limit : Nat)
    {ps : List (Particle κ D Exact)} (made : ∀ p ∈ ps, Made True resume entry s p.trace) :
    Concludes (fun _ => True) allowed fun fuel => moveAll resume fuel c limit ps := by
  unfold moveAll
  split
  next => exact .pure trivial
  next =>
    have each : ∀ p ∈ ps, Concludes (fun _ => True) allowed fun fuel => rejuvenate resume fuel c limit p :=
      fun p member =>
        Concludes.bind (moveTrace_ceases begins c.moves (made p member)) fun _ _ => .pure trivial
    exact (Concludes.mapM each).imp (fun _ _ => trivial) fun _ may => may

omit [SoundHost σ D Exact] [AnsweringHost σ D] in
/-- A population has a mean weight, unless it is degenerate. -/
theorem logMeanWeight_replies (ps : List (Particle κ D Exact)) :
    Replies (fun e => e = .degenerate ∨ allowed e) (Host.lift (Particle.logMeanWeight ps) : EStateM Failure σ Exact) := by
  unfold Particle.logMeanWeight
  dsimp only
  split
  · exact Concludes.fail (.inl rfl)
  · exact Concludes.pure trivial

/-- What a filter returns at its end. -/
def Survive (out : Outcome κ D Exact) : Prop := ∀ p ∈ out.survivors, p.trace.done = true ∧ p.alive = true

/-- A round comes to its end, and leaves the particles done or in their places. -/
theorem round_ceases (bounded : Bounded resume entry s most) (selective : Selective σ c.resampling)
    (begins : Ceasing resume allowed entry s .absent) {first : Nat}
    (aligned : Aligned resume entry s first most r st.population .due) :
    Concludes (fun after =>
        match after with
        | .ended out => Survive out
        | .due next => Aligned resume entry s first most (r + 1) next.population .due)
      (fun e => e = .degenerate ∨ allowed e) fun fuel => Filter.round resume fuel c st := by
  have wider (e : Failure) (may : allowed e) : e = .degenerate ∨ allowed e := .inr may
  have advances : Concludes (fun _ => True) allowed fun fuel =>
      st.population.mapM (Particle.advance resume fuel) :=
    (Concludes.mapM fun p member => advance_ceases begins (aligned.2.1 p member).1.made).imp
      (fun _ _ => trivial) fun _ may => may
  refine Concludes.bind (advances.seen.imp (fun _ seen => seen.2) wider) fun ps seen => ?_
  obtain ⟨_, advanced⟩ := seen
  have aligned := aligned.advance bounded advanced
  refine Concludes.bind (logMeanWeight_replies ps) fun _ _ => ?_
  by_cases finished : ps.all Particle.finished = true
  · simp only [if_pos finished]
    refine .pure fun p member => ?_
    obtain ⟨present, alive⟩ := List.mem_filter.mp member
    have ended := List.all_eq_true.mp finished p present
    exact ⟨by simpa [Particle.finished, alive] using ended, alive⟩
  · simp only [if_neg finished]
    have unfinished := (Bool.not_eq_true _).mp finished
    have spread := aligned.2.2
    obtain ⟨_, _, p, present, heavy⟩ := spread.frontline_eq bounded unfinished
    have draws : Replies allowed (resample c ps : EStateM Failure σ _) := (resample_answers
      ⟨p, present, (spread p present).1.proper.resolve_right heavy⟩
      fun q member => (spread q member).1.proper).replies
    refine Concludes.bind ((draws.concludes fun _ drew => drew).imp (fun _ drew => drew) wider)
      fun drawn resampled => ?_
    have aligned := aligned.resample bounded selective unfinished resampled
    have moves := moveAll_ceases (c := c) begins (frontline ps) fun p member =>
      (aligned.2.2.2 p member).stands.made
    refine Concludes.bind (moves.seen.imp (fun _ seen => seen.2) wider) fun moved seen => ?_
    obtain ⟨_, rejuvenated⟩ := seen
    refine Concludes.bind (.answers (Answers.note _)) fun _ _ => ?_
    exact .pure (aligned.rejuvenate rejuvenated)

/-- The loop comes to its end with what the last round leaves. -/
theorem rounds_cease (bounded : Bounded resume entry s most) (selective : Selective σ c.resampling)
    (begins : Ceasing resume allowed entry s .absent) {first rest : Nat} (enough : most < first + r + rest)
    (aligned : Aligned resume entry s first most r st.population .due) :
    Concludes Survive (fun e => e = .degenerate ∨ allowed e)
      fun fuel => rounds resume fuel c rest st.population st.mass st.report := by
  have few := aligned.1
  induction rest generalizing r st with
  | zero => omega
  | succ rest ih =>
    simp only [rounds_round]
    refine Concludes.bind (round_ceases bounded selective begins aligned) fun after leaves => ?_
    cases after with
    | ended out => exact .pure leaves
    | due next => exact ih (by omega) leaves leaves.1

/-- The filter itself comes to its end, its loop having as much fuel as its executions. -/
theorem run_ceases (bounded : Bounded resume entry s most) (selective : Selective σ c.resampling)
    (begins : Ceasing resume allowed entry s .absent) (made : Made True resume entry s t) (count : Nat) :
    Concludes Survive (fun e => e = .degenerate ∨ allowed e)
      fun fuel => run resume fuel c (List.replicate count ⟨t, 0⟩) := by
  intro w ready
  let st : Standing κ D Exact :=
    ⟨List.replicate count ⟨t, 0⟩, Score.zero, 0, Score.ofNat (List.replicate count (⟨t, 0⟩ : Particle κ D Exact)).length⟩
  have aligned : Aligned resume entry s t.factors most 0 st.population .due := .start bounded made count
  have enough : most < t.factors + 0 + (most + 1) := by omega
  obtain ⟨n, w', ready', ends⟩ := rounds_cease bounded selective begins enough aligned w ready
  have same (fuel : Nat) (enough : fuel ≥ max n (most + 1)) : run resume fuel c st.population =
      rounds resume fuel c (most + 1) st.population st.mass st.report :=
    Filters.enough bounded selective made .start (by omega) (by omega)
  refine ⟨max n (most + 1), w', ready', ?_⟩
  obtain ⟨out, survive, ends⟩ | ⟨e, may, ends⟩ := ends
  · refine .inl ⟨out, survive, fun fuel enough => ?_⟩
    exact (congrFun (same fuel enough) w).trans (ends fuel (le_of_max_le_left enough))
  · refine .inr ⟨e, may, fun fuel enough => ?_⟩
    exact (congrFun (same fuel enough) w).trans (ends fuel (le_of_max_le_left enough))

end

/-- A filter started with copies of one trace that has absorbed `f` factors. After the advance of
round `r` each particle is dead, or done with fewer than `f + r` factors and no weight gained, or
suspended with exactly `f + r` of them and the score of the last for a weight. Those not finished
are so at the same factor, and stay there or end before it when they are resampled and moved.
The survivors are done. The loop takes the filter from round to round, and from every state of the
host it comes to its outcome, or to the failure of a part of it, after no more rounds than there are
factors left and one, with that much fuel. A program whose executions come to an end is filtered to
the end: survivors are returned, unless all weight is lost or the program fails. -/
theorem filter_lockstep [SoundHost σ D Exact] {resume : Resume (EStateM Failure σ) κ D Exact} {entry : κ}
    {s : Store} {most : Nat} {c : Config} {t : Trace κ D Exact}
    (bounded : Bounded resume entry s most) (selective : Selective σ c.resampling)
    (made : Made True resume entry s t) (count steps : Nat) :
    (∀ r ps, Filters resume steps c (List.replicate count ⟨t, 0⟩) .advanced r ps →
      (∀ p ∈ ps, Advanced resume entry s (t.factors + r) p) ∧
      (ps.all Particle.finished = false → frontline ps = t.factors + r) ∧
      r ≤ most - t.factors + 1) ∧
    (∀ limit r ps, Filters resume steps c (List.replicate count ⟨t, 0⟩) (.resampled limit) r ps →
      limit = t.factors + r ∧ ∀ p ∈ ps, AtLimit resume entry s (t.factors + r) p) ∧
    (∀ r ps, Filters resume steps c (List.replicate count ⟨t, 0⟩) .due r ps → 0 < r →
      ∀ p ∈ ps, AtLimit resume entry s (t.factors + r) p) ∧
    (∀ fuel mass report out,
      Yields (rounds resume steps c fuel (List.replicate count ⟨t, 0⟩) mass report) out →
      (∃ r ps, Filters resume steps c (List.replicate count ⟨t, 0⟩) .advanced r ps ∧
        ps.all Particle.finished = true ∧ out.survivors = ps.filter Particle.alive) ∧
      ∀ p ∈ out.survivors, p.trace.done = true ∧ p.alive = true) ∧
    (∀ fuel ≥ most - t.factors + 1, ∀ mass report,
      rounds resume steps c fuel (List.replicate count ⟨t, 0⟩) mass report =
        rounds resume steps c (most - t.factors + 1) (List.replicate count ⟨t, 0⟩) mass report) ∧
    (∀ r st, Filters resume steps c (List.replicate count ⟨t, 0⟩) .due r st.population →
      (∀ out, Yields (round resume steps c st) (.ended out) →
        ∃ ps, Filters resume steps c (List.replicate count ⟨t, 0⟩) .advanced (r + 1) ps ∧
          ps.all Particle.finished = true ∧ out.survivors = ps.filter Particle.alive) ∧
      ∀ next, Yields (round resume steps c st) (.due next) →
        Filters resume steps c (List.replicate count ⟨t, 0⟩) .due (r + 1) next.population) ∧
    (∀ fuel ≥ most - t.factors + 1, ∀ mass report w, ∃ n ≤ most - t.factors + 1,
      Loops resume steps c n ⟨List.replicate count ⟨t, 0⟩, mass, report⟩ w
        (rounds resume steps c fuel (List.replicate count ⟨t, 0⟩) mass report w)) ∧
    ∀ [LawfulHost σ D Exact] [AnsweringHost σ D] (allowed : Failure → Prop),
      Ceasing resume allowed entry s .absent →
      (∀ mass report, Concludes Survive (fun e => e = .degenerate ∨ allowed e) fun fuel =>
        rounds resume fuel c (most - t.factors + 1) (List.replicate count ⟨t, 0⟩) mass report) ∧
      Concludes Survive (fun e => e = .degenerate ∨ allowed e) fun fuel =>
        run resume fuel c (List.replicate count ⟨t, 0⟩) := by
  have begins : Filters resume steps c (List.replicate count ⟨t, 0⟩) .due 0 (List.replicate count ⟨t, 0⟩) :=
    .start
  refine ⟨?_, ?_, ?_, ?_, ?_, ?_, ?_, ?_⟩
  · intro r ps filters
    obtain ⟨_, few, spread⟩ := filters.aligned bounded selective made
    exact ⟨fun p member => (spread p member).1, fun running => (spread.frontline_eq bounded running).1,
      by omega⟩
  · intro limit r ps filters
    obtain ⟨_, _, rfl, stand⟩ := filters.aligned bounded selective made
    exact ⟨rfl, stand⟩
  · intro r ps filters positive
    exact (filters.aligned bounded selective made).2.2 positive
  · intro fuel mass report out yields
    obtain ⟨r, ps, filters, finished, survive⟩ := begins.outcome yields
    refine ⟨⟨r, ps, filters, finished, survive⟩, fun p member => ?_⟩
    rw [survive] at member
    obtain ⟨present, alive⟩ := List.mem_filter.mp member
    have ended := List.all_eq_true.mp finished p present
    exact ⟨by simpa [Particle.finished, alive] using ended, alive⟩
  · intro fuel enough mass report
    exact begins.enough bounded selective made (by omega) (by omega)
  · intro r st filters
    exact filters.round
  · intro fuel enough mass report w
    let st : Standing κ D Exact := ⟨List.replicate count ⟨t, 0⟩, mass, report⟩
    have more : most < t.factors + 0 + fuel := by omega
    have begins : Filters resume steps c (List.replicate count ⟨t, 0⟩) .due 0 st.population := .start
    obtain ⟨n, few, loops⟩ := begins.loops bounded selective made more w
    exact ⟨n, by omega, loops⟩
  · intro _ _ allowed ceasing
    refine ⟨fun mass report => ?_, run_ceases bounded selective ceasing made count⟩
    let st : Standing κ D Exact := ⟨List.replicate count ⟨t, 0⟩, mass, report⟩
    have aligned : Aligned resume entry s t.factors most 0 st.population .due := .start bounded made count
    exact rounds_cease bounded selective ceasing (by omega) aligned

section

open ProbCore.Cascade (Coins coinResume coin_answers)

theorem coin_selective : Selective Coins .multinomial := by
  intro weights n indices yields _ i member weightless
  have heavy := (List.mem_filter.mp (Endless.selection_weighty yields i member)).2
  rw [List.getD_eq_getElem?_getD, weightless] at heavy
  cases heavy

theorem coin_replies (k : Nat) (s : Store) (v : Value) : Replies (fun _ => False) (coinResume k s v) := by
  have goes : ∃ step, headsWeighed.next k s v = .ok step := by
    unfold headsWeighed
    dsimp only
    split
    all_goals exact ⟨_, rfl⟩
  obtain ⟨step, known⟩ := goes
  exact .lift known

/-- The coin is tossed, and after heads two factors are absorbed; then the value is returned. -/
theorem coin_ceasing (s : Store) (v : Value) : Ceasing coinResume (fun _ => False) 0 s v := by
  have last (s : Store) (v : Value) : Ceasing coinResume (fun _ => False) 3 s v := by
    refine ⟨coin_replies 3 s v, fun step goes => ?_⟩
    rcases headsWeighed_steps goes with ⟨other, _⟩ | ⟨other, _⟩ | ⟨other, _⟩ | rfl
    all_goals first | exact .exit | cases other
  have second (s : Store) (v : Value) : Ceasing coinResume (fun _ => False) 2 s v := by
    refine ⟨coin_replies 2 s v, fun step goes => ?_⟩
    rcases headsWeighed_steps goes with ⟨other, _⟩ | ⟨other, _⟩ | ⟨_, rfl⟩ | rfl
    on_goal 3 => exact .absorb (fun _ => (last s .absent).resumes) fun step _ => (last s .absent).ceases step
    all_goals first | exact .exit | cases other
  have first (s : Store) (v : Value) : Ceasing coinResume (fun _ => False) 1 s v := by
    refine ⟨coin_replies 1 s v, fun step goes => ?_⟩
    rcases headsWeighed_steps goes with ⟨other, _⟩ | ⟨_, rfl⟩ | ⟨other, _⟩ | rfl
    on_goal 2 => exact .absorb (fun _ => (second s .absent).resumes) fun step _ => (second s .absent).ceases step
    all_goals first | exact .exit | cases other
  refine ⟨coin_replies 0 s v, fun step goes => ?_⟩
  rcases headsWeighed_steps goes with ⟨_, rfl⟩ | ⟨other, _⟩ | ⟨other, _⟩ | rfl
  on_goal 1 =>
    refine .choose (fun unhashable => nomatch unhashable) coin_answers.replies (fun v => ?_) (fun v _ => ?_)
      (fun v _ => (first s v).resumes) fun v step _ => (first s v).ceases step
    · rw [accepts_eq]
      exact .lift rfl
    · rw [LawfulHost.logDensity_eq]
      exact .lift rfl
  all_goals first | exact .exit | cases other

/-- A filter of this program, with a move at each factor, runs for at most three rounds and returns
its survivors, unless it loses all weight. It can be at its first factor. -/
theorem headsWeighed_lockstep :
    (∀ r ps, Filters coinResume 2 ⟨1, 1, .multinomial⟩ [⟨.start 0 .empty, 0⟩] .advanced r ps →
      r ≤ 3 ∧ ∀ p ∈ ps, Advanced coinResume 0 .empty r p) ∧
    (∃ p, Filters coinResume 2 ⟨1, 1, .multinomial⟩ [⟨.start 0 .empty, 0⟩] .advanced 1 [p] ∧
      p.trace.ending = .suspended 2 ∧ p.weight.IsReal) ∧
    (∀ w, ∃ n ≤ 3, Loops coinResume 2 ⟨1, 1, .multinomial⟩ n ⟨[⟨.start 0 .empty, 0⟩], 0, ⟨0, Score.ofNat 1⟩⟩ w
      (rounds coinResume 2 ⟨1, 1, .multinomial⟩ 3 [⟨.start 0 .empty, 0⟩] 0 ⟨0, Score.ofNat 1⟩ w)) ∧
    Concludes Survive (fun e => e = .degenerate ∨ False)
      fun fuel => run coinResume fuel ⟨4, 1, .multinomial⟩ (List.replicate 4 ⟨.start 0 .empty, 0⟩) := by
  obtain ⟨advanced, _, _, _, _, _, loops, _⟩ := filter_lockstep (headsWeighed_bounded rfl)
    (c := ⟨1, 1, .multinomial⟩) coin_selective .start 1 2
  obtain ⟨_, _, _, _, _, _, _, concludes⟩ := filter_lockstep (headsWeighed_bounded rfl)
    (c := ⟨4, 1, .multinomial⟩) coin_selective .start 4 2
  refine ⟨fun r ps filters => ?_, ?_, fun w => loops 3 (le_refl 3) 0 ⟨0, Score.ofNat 1⟩ w,
    (concludes (fun _ => False) (coin_ceasing .empty .absent)).2⟩
  · obtain ⟨places, _, few⟩ := advanced r ps filters
    refine ⟨few, fun p member => ?_⟩
    rw [← Nat.zero_add r]
    exact places p member
  · let began : Trace Nat Unit Exact := .start 0 .empty
    let p : Particle Nat Unit Exact :=
      ⟨headsRecorded.trace, 0 + (headsRecorded.trace.likelihood - began.likelihood)⟩
    refine ⟨p, .advance .start ⟨⟨fun _ => 1⟩, ⟨fun _ => 1⟩, ?_⟩, rfl, _, rfl⟩
    rw [List.mapM_cons]
    have extended : Kernel.extend coinResume 2 (.start 0 .empty) (some 1) (⟨fun _ => 1⟩ : Coins) =
        .ok (some headsRecorded.trace) ⟨fun _ => 1⟩ := rfl
    exact bind_eq_ok.mpr ⟨p, _, bind_eq_ok.mpr ⟨_, _, extended, rfl⟩, rfl⟩

end

end ProbCore.Filter
