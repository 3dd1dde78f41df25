import ProbCore.Proofs.KernelOutcomes
import ProbCore.Proofs.OpeningTurns
import ProbCore.Strategy.Method

/-! Where the values of the sampling strategies come from. Whatever a strategy does with its
traces, be it weighing, selecting or moving them, the values that it puts into its marginal are
those of complete traces that the kernel made. -/

namespace ProbCore

open Kernel

/-- The values that a marginal was built from. -/
def Marginal.Pools {R : Type} [Score R] (M : Marginal Value R) (vs : List Value) : Prop :=
  ∃ weights normalization samples diagnostics,
    Marginal.ofLogWeights vs weights normalization samples diagnostics = .ok M ∧ ∀ v ∈ samples, v ∈ vs

section

namespace Filter

variable {m : Type → Type} {κ D R : Type} [Monad m] [Host m D R] [Score R]

/-- The moves of a whole population at a limit, if there are any. -/
def moveAll (resume : Resume m κ D R) (steps : Nat) (c : Config) (limit : Nat)
    (ps : List (Particle κ D R)) : m (List (Particle κ D R)) :=
  if c.moves == 0 then pure ps else ps.mapM (rejuvenate resume steps c limit)

theorem moveAll_unmoved {c : Config} (unmoved : c.moves = 0) (resume : Resume m κ D R) (steps limit : Nat)
    (ps : List (Particle κ D R)) : moveAll resume steps c limit ps = pure ps := by
  rw [moveAll, unmoved]
  rfl

theorem rounds_succ (resume : Resume m κ D R) (steps fuel : Nat) (c : Config) (ps : List (Particle κ D R))
    (mass : R) (report : Report R) :
    rounds resume steps c (fuel + 1) ps mass report = (do
      let qs ← ps.mapM (Particle.advance resume steps)
      if qs.all Particle.finished then
        let more ← Host.lift (Particle.logMeanWeight qs)
        return ⟨mass + more, qs.filter Particle.alive, report⟩
      else
        let more ← Host.lift (Particle.logMeanWeight qs)
        let size := Score.effectiveSize (qs.map (·.weight))
        let report := ⟨report.rounds + 1, Score.least report.leastSize size⟩
        let drawn ← resample c qs
        let moved ← moveAll resume steps c (frontline qs) drawn
        Host.note (.filterRound report.rounds (Score.toFloat (mass + more)))
        rounds resume steps c fuel moved (mass + more) report) := by
  rw [rounds]
  congr
  funext qs
  split
  · rfl
  · congr
    funext more
    dsimp only
    congr
    funext drawn
    unfold moveAll
    split
    · rfl
    · rfl

end Filter

end

section

variable {R : Type} [Score R] {M : Marginal Value R} {vs : List Value}

namespace Marginal

omit [Score R] in
theorem value_of_insert {key : Value.Key} {v : Value} {w : R} {gs : List (Group R)} :
    ∀ g ∈ Group.insert key v w gs, g.value = v ∨ ∃ h ∈ gs, h.value = g.value := by
  induction gs with
  | nil =>
    intro g member
    obtain rfl := List.mem_singleton.mp member
    exact .inl rfl
  | cons first rest ih =>
    intro g member
    rw [Group.insert] at member
    split at member
    · rcases List.mem_cons.mp member with rfl | member
      · exact .inr ⟨first, List.mem_cons_self, rfl⟩
      · exact .inr ⟨g, List.mem_cons_of_mem first member, rfl⟩
    · rcases List.mem_cons.mp member with rfl | member
      · exact .inr ⟨g, List.mem_cons_self, rfl⟩
      · rcases ih g member with new | ⟨h, present, same⟩
        · exact .inl new
        · exact .inr ⟨h, List.mem_cons_of_mem first present, same⟩

omit [Score R] in
theorem value_of_groups {pairs : List (Value × R)} {before after : List (Group R)}
    (grouped : pairs.foldlM (fun gs (value, weight) => do
      return Group.insert (← value.key) value weight gs) before = .ok after) :
    ∀ g ∈ after, g.value ∈ pairs.map (·.1) ∨ ∃ h ∈ before, h.value = g.value := by
  induction pairs generalizing before with
  | nil =>
    cases grouped
    exact fun g member => .inr ⟨g, member, rfl⟩
  | cons p rest ih =>
    obtain ⟨v, w⟩ := p
    rw [List.foldlM_cons] at grouped
    dsimp only at grouped
    cases keyed : v.key with
    | error e =>
      rw [keyed] at grouped
      cases grouped
    | ok key =>
      rw [keyed] at grouped
      intro g member
      rcases ih grouped g member with later | ⟨h, present, same⟩
      · exact .inl (List.mem_cons_of_mem _ later)
      · rcases value_of_insert h present with new | ⟨old, found, alike⟩
        · exact .inl (by rw [← same, new]; exact List.mem_cons_self)
        · exact .inr ⟨old, found, alike.trans same⟩

theorem Pools.mem (pools : M.Pools vs) {v : Value} (member : v ∈ M.values ∨ v ∈ M.samples) : v ∈ vs := by
  obtain ⟨weights, normalization, samples, diagnostics, made, inside⟩ := pools
  unfold ofLogWeights at made
  split at made
  next => cases made
  next =>
    cases grouped : groups vs weights with
    | error e =>
      rw [grouped] at made
      cases made
    | ok gs =>
      rw [grouped] at made
      simp only [bind, Except.bind, pure, Except.pure] at made
      split at made
      next => cases made
      next =>
        cases made
        rcases member with member | member
        · obtain ⟨g, present, rfl⟩ := List.mem_map.mp member
          rcases value_of_groups grouped g present with found | ⟨_, nothing, _⟩
          · obtain ⟨p, both, same⟩ := List.mem_map.mp found
            rw [← same]
            exact (List.of_mem_zip both).1
          · cases nothing
        · exact inside v member

end Marginal

end

variable {σ κ D R : Type} [Host (EStateM Failure σ) D R] [SoundHost σ D R] [Score R]
  {resume : Resume (EStateM Failure σ) κ D R} {entry : κ} {s : Store} {fuel : Nat}
  {M : Marginal Value R} {values : List Value} {moving : Prop}

theorem Marginal.pools_ofSamples {normalization : Option R} {diagnostics : List (String × Measure R)}
    (yields : Yields (Host.lift (Marginal.ofSamples values normalization diagnostics) :
      EStateM Failure σ _) M) : M.Pools values :=
  ⟨_, _, _, _, yields.lift, fun _ member => member⟩

theorem Marginal.pools_ofLogWeights {weights : List R} {normalization : Option R}
    {diagnostics : List (String × Measure R)}
    (yields : Yields (Host.lift (Marginal.ofLogWeights values weights normalization [] diagnostics) :
      EStateM Failure σ _) M) : M.Pools values :=
  ⟨_, _, _, _, yields.lift, nofun⟩

/-- The values of complete traces that the kernel makes. -/
def Kernel.Returned (moving : Prop) (resume : Resume (EStateM Failure σ) κ D R) (entry : κ) (s : Store)
    (v : Value) : Prop :=
  ∃ t, Made moving resume entry s t ∧ t.ending = .done v

/-- The values of a marginal are all from such traces. -/
def Kernel.Supplies (moving : Prop) (resume : Resume (EStateM Failure σ) κ D R) (entry : κ) (s : Store)
    (M : Marginal Value R) : Prop :=
  ∃ vs, M.Pools vs ∧ ∀ v ∈ vs, Returned moving resume entry s v

namespace Chain

variable {c : Config}

theorem walk_returned (moves : moving) {remaining step accepted : Nat} {t : Trace κ D R} {out : List Value × Nat}
    (made : Made moving resume entry s t) (before : ∀ v ∈ values, Returned moving resume entry s v)
    (yields : Yields (walk resume fuel c remaining step t values accepted) out) :
    ∀ v ∈ out.1, Returned moving resume entry s v := by
  induction remaining generalizing step t values accepted with
  | zero =>
    rw [yields.pure]
    exact before
  | succ remaining ih =>
    obtain ⟨⟨next, moved⟩, ran, yields⟩ := Yields.bind yields
    have made := made.move moves ran
    dsimp only at yields
    split at yields
    next =>
      obtain ⟨v, finished, yields⟩ := yields.bind
      unfold exitValue at finished
      split at finished
      next u ending =>
        obtain rfl := finished.pure
        exact ih made (List.forall_mem_cons.mpr ⟨⟨next, made, ending⟩, before⟩) yields
      next => exact finished.not_fail
    next => exact ih made before yields

theorem estimate_supplies (yields : Yields (estimate resume fuel c entry s) M) :
    Supplies True resume entry s M := by
  obtain ⟨t, found, yields⟩ := Yields.bind yields
  obtain ⟨⟨values, accepted⟩, walked, yields⟩ := yields.bind
  have returned := walk_returned trivial (Made.findStart found) (List.forall_mem_nil _) walked
  have concluded : Yields (Host.lift (Marginal.ofSamples values.reverse none
      [("acceptance_rate", .rate (Score.ofNat accepted / Score.ofNat c.steps))]) :
        EStateM Failure σ _) M := by
    dsimp only at yields
    split at yields
    next =>
      obtain ⟨_, _, yields⟩ := yields.bind
      exact yields
    next => exact yields
  refine ⟨values.reverse, Marginal.pools_ofSamples concluded, fun v member => ?_⟩
  exact returned v (List.mem_reverse.mp member)

end Chain

namespace Particle

omit [SoundHost σ D R] in
/-- An advance leaves a finished particle as it is, and gives up or extends the others. -/
theorem advance_cases {p q : Particle κ D R} (yields : Yields (p.advance resume fuel) q) :
    p.finished = true ∧ q = p ∨ p.finished = false ∧
      (Yields (Kernel.extend resume fuel p.trace (some (p.trace.factors + 1))) none ∧
          q = ⟨p.trace, Score.impossible⟩ ∨
        ∃ t, Yields (Kernel.extend resume fuel p.trace (some (p.trace.factors + 1))) (some t) ∧
          q = ⟨t, p.weight + (t.likelihood - p.trace.likelihood)⟩) := by
  unfold advance at yields
  split at yields
  next finished => exact .inl ⟨finished, yields.pure⟩
  next unfinished =>
    refine .inr ⟨by simpa using unfinished, ?_⟩
    obtain ⟨extended, ran, yields⟩ := yields.bind
    cases extended with
    | none => exact .inl ⟨ran, yields.pure⟩
    | some t => exact .inr ⟨t, ran, yields.pure⟩

omit [SoundHost σ D R] in
theorem advance_made {p q : Particle κ D R} (made : Made moving resume entry s p.trace)
    (yields : Yields (p.advance resume fuel) q) : Made moving resume entry s q.trace := by
  rcases p.advance_cases yields with ⟨_, rfl⟩ | ⟨_, ⟨_, rfl⟩ | ⟨t, ran, rfl⟩⟩
  · exact made
  · exact made
  · exact made.extend ran

theorem done_of_finished {p : Particle κ D R} (finished : p.finished = true) (alive : p.alive = true) :
    p.trace.done = true := by
  simpa [Particle.finished, alive] using finished

end Particle

theorem Trace.ending_of_done {κ D R : Type} {t : Trace κ D R} (done : t.done = true) :
    ∃ v, t.ending = .done v := by
  cases ending : t.ending with
  | done v => exact ⟨v, rfl⟩
  | suspended k =>
    rw [Trace.done, ending] at done
    cases done

/-- A complete execution that the kernel made. -/
def Kernel.Complete (moving : Prop) (resume : Resume (EStateM Failure σ) κ D R) (entry : κ) (s : Store)
    (p : Particle κ D R) : Prop :=
  Made moving resume entry s p.trace ∧ p.trace.done = true

omit [SoundHost σ D R] in
theorem Kernel.Complete.value {p : Particle κ D R} (complete : Complete moving resume entry s p) :
    ∃ v, p.trace.value? = some v ∧ Returned moving resume entry s v := by
  obtain ⟨made, done⟩ := complete
  obtain ⟨v, ending⟩ := Trace.ending_of_done done
  exact ⟨v, by rw [Trace.value?, ending], p.trace, made, ending⟩

omit [SoundHost σ D R] in
/-- The values of a population of complete executions. -/
theorem Kernel.returned_values {ps : List (Particle κ D R)} (complete : ∀ p ∈ ps, Complete moving resume entry s p) :
    ∀ v ∈ ps.map fun p => p.trace.value?.getD .absent, Returned moving resume entry s v := by
  intro v member
  obtain ⟨p, present, rfl⟩ := List.mem_map.mp member
  obtain ⟨v, found, returned⟩ := (complete p present).value
  rwa [found]

namespace Filter

variable {c : Config} {ps qs : List (Particle κ D R)}

omit [SoundHost σ D R] in
/-- Resampling copies traces, with weight one, of members at the indices selected. -/
theorem resample_yields (yields : Yields (resample c ps : EStateM Failure σ _) qs) :
    ∃ indices, Yields (Particle.select c.resampling (ps.map (·.weight)) ps.length :
        EStateM Failure σ _) indices ∧
      ∀ q ∈ qs, ∃ i ∈ indices, ∃ p, ps[i]? = some p ∧ q = ⟨p.trace, Score.zero⟩ := by
  obtain ⟨indices, selected, yields⟩ := Yields.bind yields
  obtain rfl := yields.pure
  refine ⟨indices, selected, fun q member => ?_⟩
  obtain ⟨i, chosen, found⟩ := List.mem_filterMap.mp member
  obtain ⟨p, inside, same⟩ := Option.map_eq_some_iff.mp found
  exact ⟨i, chosen, p, inside, same.symm⟩

omit [SoundHost σ D R] in
theorem moveTrace_made (moves' : moving) {limit moves : Nat} {t t' : Trace κ D R} (made : Made moving resume entry s t)
    (yields : Yields (moveTrace resume fuel limit moves t) t') : Made moving resume entry s t' := by
  induction moves generalizing t with
  | zero =>
    rw [yields.pure]
    exact made
  | succ moves ih =>
    obtain ⟨⟨next, accepted⟩, ran, yields⟩ := Yields.bind yields
    exact ih (made.move moves' ran) yields

omit [SoundHost σ D R] in
theorem moveAll_made {limit : Nat} (moves : c.moves ≠ 0 → moving) (made : ∀ p ∈ ps, Made moving resume entry s p.trace)
    (yields : Yields (moveAll resume fuel c limit ps) qs) : ∀ q ∈ qs, Made moving resume entry s q.trace := by
  unfold moveAll at yields
  split at yields
  next =>
    rw [yields.pure]
    exact made
  next some_moves =>
    intro q member
    obtain ⟨p, present, moved⟩ := yields.mapM_mem q member
    obtain ⟨t, ran, moved⟩ := Yields.bind moved
    rw [moved.pure]
    exact moveTrace_made (moves (by simpa using some_moves)) (made p present) ran

/-- A round advances the population. It returns if all are finished then, or others that were resampled and
moved take their place. -/
theorem rounds_cases {steps : Nat} {mass : R} {report : Report R} {out : Outcome κ D R}
    (yields : Yields (rounds resume steps c (fuel + 1) ps mass report) out) :
    ∃ qs more, Yields (ps.mapM (Particle.advance resume steps)) qs ∧ Particle.logMeanWeight qs = .ok more ∧
      (qs.all Particle.finished = true ∧ out = ⟨mass + more, qs.filter Particle.alive, report⟩ ∨
        qs.all Particle.finished = false ∧ ∃ drawn moved, Yields (resample c qs : EStateM Failure σ _) drawn ∧
          Yields (moveAll resume steps c (frontline qs) drawn) moved ∧
          Yields (rounds resume steps c fuel moved (mass + more)
            ⟨report.rounds + 1, Score.least report.leastSize (Score.effectiveSize (qs.map (·.weight)))⟩) out) := by
  rw [rounds_succ] at yields
  obtain ⟨qs, advanced, yields⟩ := yields.bind
  split at yields
  next finished =>
    obtain ⟨more, mean, yields⟩ := yields.bind
    exact ⟨qs, more, advanced, mean.lift, .inl ⟨finished, yields.pure⟩⟩
  next unfinished =>
    obtain ⟨more, mean, yields⟩ := yields.bind
    obtain ⟨drawn, resampled, yields⟩ := yields.bind
    obtain ⟨moved, rejuvenated, yields⟩ := yields.bind
    obtain ⟨_, _, yields⟩ := yields.bind
    refine ⟨qs, more, advanced, mean.lift, .inr ⟨Bool.eq_false_iff.mpr unfinished, ?_⟩⟩
    exact ⟨drawn, moved, resampled, rejuvenated, yields⟩

theorem rounds_complete (moves : c.moves ≠ 0 → moving) {steps : Nat} {mass : R} {report : Report R} {out : Outcome κ D R}
    (made : ∀ p ∈ ps, Made moving resume entry s p.trace)
    (yields : Yields (rounds resume steps c fuel ps mass report) out) :
    ∀ p ∈ out.survivors, Complete moving resume entry s p := by
  induction fuel generalizing ps mass report with
  | zero => exact yields.not_fail
  | succ fuel ih =>
    obtain ⟨qs, _, advanced, _, goes⟩ := rounds_cases yields
    have made : ∀ q ∈ qs, Made moving resume entry s q.trace := by
      intro q member
      obtain ⟨p, present, ran⟩ := advanced.mapM_mem q member
      exact p.advance_made (made p present) ran
    obtain ⟨finished, rfl⟩ | ⟨_, drawn, moved, resampled, rejuvenated, yields⟩ := goes
    · intro p member
      obtain ⟨present, alive⟩ := List.mem_filter.mp member
      exact ⟨made p present, p.done_of_finished (List.all_eq_true.mp finished p present) alive⟩
    · obtain ⟨_, _, copies⟩ := resample_yields resampled
      refine ih (moveAll_made moves ?_ rejuvenated) yields
      intro q member
      obtain ⟨_, _, p, inside, rfl⟩ := copies q member
      exact made p (List.mem_of_getElem? inside)

theorem run_complete (moves : c.moves ≠ 0 → moving) {t : Trace κ D R} {count : Nat} {out : Outcome κ D R}
    (made : Made moving resume entry s t)
    (yields : Yields (run resume fuel c (List.replicate count ⟨t, Score.zero⟩)) out) :
    ∀ p ∈ out.survivors, Complete moving resume entry s p := by
  refine rounds_complete moves (fun p member => ?_) yields
  obtain rfl := List.eq_of_mem_replicate member
  exact made

theorem estimate_supplies (yields : Yields (estimate resume fuel c entry s) M) :
    Supplies (c.moves ≠ 0) resume entry s M := by
  obtain ⟨out, ran, yields⟩ := Yields.bind yields
  exact ⟨_, Marginal.pools_ofLogWeights yields, returned_values (run_complete id .start ran)⟩

end Filter

namespace OpeningChain

variable {c : Config} {t : Trace κ D R} {st st' : State κ D R}

/-- An opening that the kernel made, with a population of complete executions. -/
structure Sound (moving : Prop) (resume : Resume (EStateM Failure σ) κ D R) (entry : κ) (s : Store)
    (st : State κ D R) : Prop where
  opening : Made moving resume entry s st.opening
  population : ∀ p ∈ st.population, Complete moving resume entry s p

theorem complete_population {Z : R} {population : List (Particle κ D R)} (made : Made moving resume entry s t)
    (yields : Yields (complete resume fuel c t) (Z, population)) :
    ∀ p ∈ population, Complete moving resume entry s p := by
  obtain ⟨out, estimated⟩ := complete_yields yields
  have left : population = out.survivors := estimated.left
  rw [left]
  exact Filter.run_complete (fun some_moves => absurd rfl some_moves) made estimated.ran

theorem drawValue_returned {population : List (Particle κ D R)} {v : Value}
    (complete : ∀ p ∈ population, Complete moving resume entry s p)
    (yields : Yields (drawValue population : EStateM Failure σ Value) v) : Returned moving resume entry s v := by
  obtain ⟨p, member, drawn⟩ := drawValue_member yields
  obtain ⟨u, found, returned⟩ := (complete p member).value
  rw [drawn, found]
  exact returned

omit [SoundHost σ D R] in
theorem propose_made (moves : moving) {r : R} {t' : Trace κ D R} (made : Made moving resume entry s t)
    (yields : Yields (propose resume fuel t) (some (t', r))) : Made moving resume entry s t' := by
  rcases propose_cases yields with ⟨_, rfl, _⟩ | ⟨_, ran, _⟩
  · exact made
  · exact made.regenerate moves ran

theorem startChain_sound (yields : Yields (startChain resume fuel c entry s) st) :
    Sound moving resume entry s st := by
  obtain ⟨found, ran⟩ := startChain_yields yields
  have made : Made moving resume entry s st.opening := Made.findStart found
  exact ⟨made, complete_population made ran⟩

theorem sweep_sound (moves : moving) {accepted : Bool} (sound : Sound moving resume entry s st)
    (yields : Yields (sweep resume fuel c st) (st', accepted)) : Sound moving resume entry s st' := by
  cases sweep_turn yields with
  | unproposed | lost | refused => exact sound
  | accepted poses =>
    obtain ⟨_, proposed, _⟩ := poses.proposed
    have made := propose_made moves sound.opening proposed
    exact ⟨made, complete_population made poses.ran⟩

theorem sweeps_returned (moves : moving) {remaining number accepted : Nat} {out : List Value × Nat}
    (sound : Sound moving resume entry s st) (before : ∀ v ∈ values, Returned moving resume entry s v)
    (yields : Yields (sweeps resume fuel c remaining number st values accepted) out) :
    ∀ v ∈ out.1, Returned moving resume entry s v := by
  induction remaining generalizing number st values accepted with
  | zero =>
    rw [yields.pure]
    exact before
  | succ remaining ih =>
    obtain ⟨⟨next, moved⟩, ran, yields⟩ := Yields.bind yields
    obtain ⟨v, drawn, yields⟩ := yields.bind
    obtain ⟨_, _, yields⟩ := yields.bind
    have sound := sweep_sound moves sound ran
    have returned := drawValue_returned sound.population drawn
    exact ih sound (List.forall_mem_cons.mpr ⟨returned, before⟩) yields

theorem estimate_supplies (yields : Yields (estimate resume fuel c entry s) M) :
    Supplies True resume entry s M := by
  obtain ⟨st, started, yields⟩ := Yields.bind yields
  obtain ⟨⟨values, accepted⟩, swept, yields⟩ := yields.bind
  have returned := sweeps_returned trivial (startChain_sound started) (List.forall_mem_nil _) swept
  refine ⟨values.reverse, Marginal.pools_ofSamples yields, fun v member => ?_⟩
  exact returned v (List.mem_reverse.mp member)

end OpeningChain

namespace Cascade

variable {c : Config} {pool pool' : Pool κ D R} {p : Particle κ D R}

structure Sound (moving : Prop) (resume : Resume (EStateM Failure σ) κ D R) (entry : κ) (s : Store)
    (pool : Pool κ D R) : Prop where
  buffer : ∀ p ∈ pool.buffer, Made moving resume entry s p.trace
  finished : ∀ p ∈ pool.finished, Complete moving resume entry s p

omit [SoundHost σ D R] in
theorem children_share {mean : R} {buffered : Nat} {born : List (Particle κ D R)}
    (yields : Yields (children c p mean buffered : EStateM Failure σ _) born) :
    ∀ q ∈ born, q.trace = p.trace := by
  unfold children at yields
  dsimp only at yields
  split at yields
  next =>
    obtain ⟨_, _, yields⟩ := yields.bind
    rw [yields.pure]
    intro q member
    split at member
    · obtain rfl := List.mem_singleton.mp member
      rfl
    · cases member
  next =>
    obtain ⟨_, _, yields⟩ := yields.bind
    rw [yields.pure]
    intro q member
    obtain rfl := List.eq_of_mem_replicate member
    rfl

omit [SoundHost σ D R] in
theorem process_sound (made : Made moving resume entry s p.trace) (sound : Sound moving resume entry s pool)
    (yields : Yields (process resume fuel c p pool) pool') : Sound moving resume entry s pool' := by
  obtain ⟨fate, ran, yields⟩ := Yields.bind yields
  obtain ⟨q, advanced, ended⟩ := Yields.bind ran
  have made := p.advance_made made advanced
  split at ended
  next =>
    obtain rfl := ended.pure
    rw [yields.pure]
    exact sound
  next =>
    split at ended
    next done =>
      obtain rfl := ended.pure
      rw [yields.pure]
      exact ⟨sound.buffer, List.forall_mem_cons.mpr ⟨⟨made, done⟩, sound.finished⟩⟩
    next =>
      obtain rfl := ended.pure
      obtain ⟨born, drawn, yields⟩ := yields.bind
      rw [yields.pure]
      refine ⟨fun q member => ?_, sound.finished⟩
      rcases List.mem_append.mp member with new | old
      · rw [children_share drawn q (List.mem_reverse.mp new)]
        exact made
      · exact sound.buffer q old

theorem schedule_sound {steps roots : Nat} {root : Particle κ D R} {out : Pool κ D R × Nat}
    (made : Made moving resume entry s root.trace) (sound : Sound moving resume entry s pool)
    (yields : Yields (schedule resume steps c root fuel pool roots) out) :
    Sound moving resume entry s out.1 := by
  induction fuel generalizing pool roots with
  | zero => exact yields.not_fail
  | succ fuel ih =>
    unfold schedule at yields
    split at yields
    next p buffer waiting =>
      obtain ⟨pool', processed, yields⟩ := yields.bind
      have inside := sound.buffer
      rw [waiting] at inside
      obtain ⟨first, others⟩ := List.forall_mem_cons.mp inside
      have rest : Sound moving resume entry s { pool with buffer } := ⟨others, sound.finished⟩
      exact ih (process_sound first rest processed) yields
    next =>
      split at yields
      next =>
        rw [yields.pure]
        exact sound
      next =>
        split at yields
        next => exact yields.not_fail
        next =>
          obtain ⟨pool', processed, yields⟩ := yields.bind
          exact ih (process_sound made sound processed) yields

theorem estimate_supplies (yields : Yields (estimate resume fuel c entry s) M) :
    Supplies False resume entry s M := by
  obtain ⟨⟨pool, roots⟩, collected, yields⟩ := Yields.bind yields
  obtain ⟨_, _, yields⟩ := Yields.bind yields
  have sound : Sound False resume entry s pool :=
    schedule_sound .start ⟨List.forall_mem_nil _, List.forall_mem_nil _⟩ collected
  refine ⟨_, Marginal.pools_ofLogWeights yields, returned_values fun p member => ?_⟩
  exact sound.finished p (List.mem_reverse.mp member)

end Cascade

end ProbCore
