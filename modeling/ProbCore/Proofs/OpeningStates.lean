import ProbCore.Proofs.ChainClosure
import ProbCore.Proofs.EvidenceMean
import ProbCore.Proofs.SingleParticle

/-! The states of a chain over openings. An opening ends before its first factor or is suspended at it.
The population beside it was left by the same inner filter that estimated its mass, which only extends
executions: its members are ways to go on from the opening. A sweep replaces all of a state or nothing. -/

namespace ProbCore

open Kernel

namespace Kernel

section

variable {σ κ D R : Type} [Host (EStateM Failure σ) D R] [Score R]

/-- The traces that a trace is extended to, under any limits. -/
inductive Continues (resume : Resume (EStateM Failure σ) κ D R) (t : Trace κ D R) : Trace κ D R → Prop where
  | here : Continues resume t t
  | extend {t' t'' fuel limit} (before : Continues resume t t')
      (yields : Yields (Kernel.extend resume fuel t' limit) (some t'')) : Continues resume t t''

/-- A way to go on from a trace: itself if it is complete, and else an execution from its rest to a value.
The choices of that execution are drawn, and follow those of the trace. -/
inductive Completes (resume : Resume (EStateM Failure σ) κ D R) (opening t : Trace κ D R) : Prop where
  | itself {v : Value} (ending : opening.ending = .done v) (same : t = opening)
  | resumed {k : κ} {v : Value} {later : List (Choice κ D R)} {xs : List R}
      (ending : opening.ending = .suspended k) (done : t.ending = .done v)
      (choices : t.choices = opening.choices ++ later)
      (executes : Executes resume (Drawn σ) k opening.store (later.map Choice.told) xs v)

/-- Executions that go on from the rest of an opening. -/
def onwards (resume : Resume (EStateM Failure σ) κ D R) (opening : Trace κ D R) (k : κ) :
    Invariant False resume where
  holds cs _ k' s' v := ∃ later xs, cs = opening.choices ++ later ∧
    Reaches resume (Drawn σ) k opening.store (later.map Choice.told) xs k' s' v
  fair _ := True
  choose {cs T k₁ k₂ s₁ s₂ u v a d lp} held goes offered weighs possible := by
    obtain ⟨later, xs, rfl, reaches⟩ := held
    have drawn : Drawn σ d v := by
      rcases offered with drawn | ⟨_, ⟨moving, _⟩, _⟩
      · exact ⟨drawn, lp, weighs, possible⟩
      · exact moving.elim
    refine ⟨trivial, later ++ [_], xs, List.append_assoc .., ?_⟩
    rw [List.map_append]
    exact reaches.choose goes drawn
  absorb {cs T k₁ k₂ s₁ s₂ u a x} held goes fine := by
    obtain ⟨later, xs, rfl, reaches⟩ := held
    exact ⟨later, xs ++ [x], rfl, reaches.absorb goes⟩

variable {resume : Resume (EStateM Failure σ) κ D R} {entry : κ} {s : Store} {moving : Prop}
  {t t' opening : Trace κ D R} {fuel : Nat} {limit : Option Nat} {v : Value}

theorem Continues.made (continues : Continues resume t t') (made : Made moving resume entry s t) :
    Made moving resume entry s t' := by
  induction continues with
  | here => exact made
  | extend _ yields ih => exact ih.extend yields

variable [SoundHost σ D R]

theorem Invariant.Closes.extend {I : Invariant moving resume} (closes : I.Closes t)
    (yields : Yields (Kernel.extend resume fuel t limit) (some t')) : I.Closes t' := by
  rcases extend_makes yields with ⟨v, _, rfl⟩ | ⟨k, step, out, ending, goes, makes, rfl⟩
  · exact closes
  · refine Invariant.closes_of_makes makes ?_ nofun
    rw [List.reverse_reverse]
    exact ⟨_, _, _, closes.holds ending, goes⟩

theorem Continues.closes {I : Invariant moving resume} (continues : Continues resume t t') (closes : I.Closes t) :
    I.Closes t' := by
  induction continues with
  | here => exact closes
  | extend _ yields ih => exact ih.extend yields

omit [SoundHost σ D R] in
theorem Continues.of_done (continues : Continues resume t t') (ending : t.ending = .done v) : t' = t := by
  induction continues with
  | here => rfl
  | extend _ yields ih =>
    subst ih
    unfold Kernel.extend at yields
    rw [ending] at yields
    exact Option.some.inj yields.pure

/-- Extensions that have come to an end are ways to go on. -/
theorem Continues.completes (continues : Continues resume opening t) (done : t.done = true) :
    Completes resume opening t := by
  cases began : opening.ending with
  | done v => exact .itself began (continues.of_done began)
  | suspended k =>
    obtain ⟨v, ending⟩ := Trace.ending_of_done done
    have begins : (onwards resume opening k).Closes opening := by
      unfold Invariant.Closes
      rw [began]
      exact ⟨[], [], (List.append_nil _).symm, .start⟩
    obtain ⟨k', s', u, ⟨later, xs, choices, reaches⟩, goes⟩ := (continues.closes begins).leads ending
    exact .resumed began ending choices ⟨_, k', s', u, reaches, goes⟩

omit [SoundHost σ D R] in
/-- A way to go on makes the choices of the opening first. -/
theorem Completes.choices_prefix (completes : Completes resume opening t) :
    opening.choices <+: t.choices := by
  cases completes with
  | itself ending same => rw [same]
  | resumed ending done choices executes => exact ⟨_, choices.symm⟩

end

end Kernel

namespace Filter

section

variable {σ κ D : Type} [Host (EStateM Failure σ) D Exact] [SoundHost σ D Exact]
  {resume : Resume (EStateM Failure σ) κ D Exact} {entry : κ} {s : Store} {opening : Trace κ D Exact}
  {p q : Particle κ D Exact} {ps : List (Particle κ D Exact)} {fuel : Nat} {c : Config}

omit [SoundHost σ D Exact] in
/-- A population whose mean weight is known has a member that is alive. -/
theorem alive_of_mean {mean : Exact} (finite : ∀ p ∈ ps, p.weight.IsReal ∨ p.weight = .negInf)
    (known : Particle.logMeanWeight ps = .ok mean) : ∃ p ∈ ps, p.weight.IsReal := by
  by_contra none_real
  have nothing : Exact.mass (ps.map (·.weight)) = 0 := by
    rw [Exact.mass, List.map_map]
    apply List.sum_eq_zero
    intro m member
    obtain ⟨p, present, rfl⟩ := List.mem_map.mp member
    rcases finite p present with real | dead
    · exact absurd ⟨p, present, real⟩ none_real
    · rw [Function.comp_apply, dead]
      rfl
  rw [logMeanWeight_degenerate (List.forall_mem_map.mpr finite) nothing] at known
  cases known

/-- What the rounds keep of a population that started from an opening: its traces continue that. -/
def Onward (resume : Resume (EStateM Failure σ) κ D Exact) (opening : Trace κ D Exact)
    (ps : List (Particle κ D Exact)) : Prop :=
  ∀ p ∈ ps, Continues resume opening p.trace ∧ p.weight = 0

theorem advance_onward (tempered : Tempered resume (Takes σ) entry s) (made : Made True resume entry s opening)
    (continues : Continues resume opening p.trace) (weightless : p.weight = 0)
    (yields : Yields (p.advance resume fuel) q) :
    Continues resume opening q.trace ∧ (q.weight.IsReal ∨ q.weight = .negInf) := by
  rcases p.advance_cases yields with ⟨_, rfl⟩ | ⟨_, ⟨_, rfl⟩ | ⟨t, ran, rfl⟩⟩
  · exact ⟨continues, .inl ⟨0, weightless⟩⟩
  · exact ⟨continues, .inr rfl⟩
  · have further := continues.extend ran
    obtain ⟨l, before⟩ := (continues.made made).likelihood_real takes_chooses tempered
    obtain ⟨l', after⟩ := (further.made made).likelihood_real takes_chooses tempered
    refine ⟨further, .inl ⟨l' - l, ?_⟩⟩
    rw [weightless, before, after, Exact.real_sub, zero_add]

/-- A filter that does not move its particles leaves some of them, all alive and complete, and all
extensions of the trace that it started with. -/
theorem rounds_onward (tempered : Tempered resume (Takes σ) entry s) (made : Made True resume entry s opening)
    (unmoved : c.moves = 0) {steps : Nat} {mass : Exact} {report : Report Exact} {out : Outcome κ D Exact}
    (onward : Onward resume opening ps) (yields : Yields (rounds resume steps c fuel ps mass report) out) :
    out.survivors ≠ [] ∧
      ∀ p ∈ out.survivors, p.alive = true ∧ p.trace.done = true ∧ Continues resume opening p.trace := by
  induction fuel generalizing ps mass report with
  | zero => exact yields.not_fail
  | succ fuel ih =>
    obtain ⟨qs, _, advanced, mean, goes⟩ := rounds_cases yields
    have went : ∀ q ∈ qs, Continues resume opening q.trace ∧ (q.weight.IsReal ∨ q.weight = .negInf) := by
      intro q member
      obtain ⟨p, present, ran⟩ := advanced.mapM_mem q member
      obtain ⟨continues, weightless⟩ := onward p present
      exact advance_onward tempered made continues weightless ran
    obtain ⟨finished, rfl⟩ | ⟨_, drawn, moved, resampled, rejuvenated, yields⟩ := goes
    · obtain ⟨p, present, w, weight⟩ := alive_of_mean (fun q member => (went q member).2) mean
      have alive : p.alive = true := by
        rw [Particle.alive, weight]
        rfl
      refine ⟨List.ne_nil_of_mem (List.mem_filter.mpr ⟨present, alive⟩), fun q member => ?_⟩
      obtain ⟨inside, kept⟩ := List.mem_filter.mp member
      exact ⟨kept, q.done_of_finished (List.all_eq_true.mp finished q inside) kept, (went q inside).1⟩
    · rw [moveAll_unmoved unmoved] at rejuvenated
      rw [rejuvenated.pure] at yields
      obtain ⟨_, _, copies⟩ := resample_yields resampled
      refine ih (fun q member => ?_) yields
      obtain ⟨_, _, p, inside, rfl⟩ := copies q member
      exact ⟨(went p (List.mem_of_getElem? inside)).1, Exact.zero_eq⟩

end

end Filter

/-- A marginal keeps the samples that it is made of, and what is reported beside them. -/
theorem Marginal.ofSamples_keeps {R : Type} [Score R] {vs : List Value} {normalization : Option R}
    {diagnostics : List (String × Measure R)} {M : Marginal Value R}
    (made : ofSamples vs normalization diagnostics = .ok M) :
    M.samples = vs ∧ M.diagnostics = diagnostics := by
  unfold ofSamples ofLogWeights at made
  split at made
  next => cases made
  next =>
    cases grouped : groups vs (vs.map fun _ => (Score.zero : R)) with
    | error e =>
      rw [grouped] at made
      cases made
    | ok gs =>
      rw [grouped] at made
      simp only [bind, Except.bind, pure, Except.pure] at made
      split at made
      next => cases made
      next =>
        cases made
        exact ⟨rfl, rfl⟩

namespace OpeningChain

section

variable {σ κ D R : Type} [Host (EStateM Failure σ) D R] [Score R]
  {resume : Resume (EStateM Failure σ) κ D R} {entry : κ} {s : Store} {fuel : Nat} {c : Config}

/-- The states of a chain: one that it starts from, and those to which its sweeps lead. -/
inductive Visited (resume : Resume (EStateM Failure σ) κ D R) (fuel : Nat) (c : Config) (entry : κ) (s : Store) :
    State κ D R → Prop where
  | start {st} (yields : Yields (startChain resume fuel c entry s) st) : Visited resume fuel c entry s st
  | sweep {st st' accepted} (before : Visited resume fuel c entry s st)
      (yields : Yields (sweep resume fuel c st) (st', accepted)) : Visited resume fuel c entry s st'

/-- The values drawn by the sweeps to come, one after each. -/
inductive Proceeds (resume : Resume (EStateM Failure σ) κ D R) (fuel : Nat) (c : Config) :
    State κ D R → List Value → Prop where
  | stop {st} : Proceeds resume fuel c st []
  | sweep {st st' accepted v vs} (swept : Yields (sweep resume fuel c st) (st', accepted))
      (drawn : Yields (drawValue st'.population : EStateM Failure σ Value) v)
      (rest : Proceeds resume fuel c st' vs) : Proceeds resume fuel c st (v :: vs)

/-- What holds of every state, for all programs: its opening ends as it should, and one run of the inner
filter gave its estimate and its population. -/
structure Opened (resume : Resume (EStateM Failure σ) κ D R) (fuel : Nat) (c : Config) (entry : κ) (s : Store)
    (st : State κ D R) : Prop where
  made : Made True resume entry s st.opening
  ends : Ends (some 1) st.opening.factors st.opening.ending
  running : ∀ choice ∈ st.opening.choices, Running (some 1) choice.factors
  estimated : ∃ out, Estimated resume fuel c st out

/-- A consistent state. Its opening is complete without a factor, or suspended at its first. There are members
in its population, each alive, complete, and a way to go on from the opening. Its estimate adds to the
likelihood of the opening what the inner filter found that left this population. -/
structure Consistent (resume : Resume (EStateM Failure σ) κ D R) (fuel : Nat) (c : Config)
    (st : State κ D R) : Prop where
  opening : (∃ v, st.opening.ending = .done v) ∧ st.opening.factors = 0 ∨
    (∃ k, st.opening.ending = .suspended k) ∧ st.opening.factors = 1
  some_left : st.population ≠ []
  members : ∀ p ∈ st.population, p.alive = true ∧ p.trace.done = true ∧
    st.opening.choices <+: p.trace.choices ∧ Completes resume st.opening p.trace
  estimated : ∃ out, Estimated resume fuel c st out

variable [SoundHost σ D R] {st st' : State κ D R} {accepted : Bool} {t t' : Trace κ D R} {r Z : R}
  {population : List (Particle κ D R)}

theorem Opened.of_complete (made : Made True resume entry s t) (ends : Ends (some 1) t.factors t.ending)
    (running : ∀ choice ∈ t.choices, Running (some 1) choice.factors)
    (yields : Yields (complete resume fuel c t) (Z, population)) :
    Opened resume fuel c entry s ⟨t, Z, population⟩ :=
  ⟨made, ends, running, complete_yields yields⟩

/-- What a sweep decides about is a state like any other. -/
theorem Opened.posed {next : State κ D R} {ratio : R} (opened : Opened resume fuel c entry s st)
    (poses : Poses resume fuel c st next ratio) : Opened resume fuel c entry s next := by
  obtain ⟨t', Z', population⟩ := next
  obtain ⟨⟨r, proposed, _⟩, ran⟩ := poses
  dsimp only at proposed ran
  rcases propose_cases proposed with ⟨_, rfl, _⟩ | ⟨_, regenerated, _⟩
  · exact .of_complete opened.made opened.ends opened.running ran
  · obtain ⟨ends, running⟩ := regenerate_ends opened.running regenerated
    exact .of_complete (opened.made.regenerate trivial regenerated) ends running ran

theorem Opened.turn (opened : Opened resume fuel c entry s st) (turn : Turn resume fuel c st st' accepted) :
    Opened resume fuel c entry s st' := by
  cases turn with
  | unproposed | lost | refused => exact opened
  | accepted poses => exact opened.posed poses

theorem Visited.opened (visited : Visited resume fuel c entry s st) : Opened resume fuel c entry s st := by
  induction visited with
  | start yields =>
    obtain ⟨found, ran⟩ := startChain_yields yields
    obtain ⟨simulated, _⟩ := findStart_yields found
    obtain ⟨ends, running⟩ := simulate_ends simulated
    exact .of_complete (.simulate simulated) ends running ran
  | sweep _ yields ih => exact ih.turn (sweep_turn yields)

omit [SoundHost σ D R] in
/-- Each sweep to come draws one value. -/
theorem sweeps_proceed {remaining number count : Nat} {values : List Value} {out : List Value × Nat}
    (yields : Yields (sweeps resume fuel c remaining number st values count) out) :
    ∃ vs, Proceeds resume fuel c st vs ∧ vs.length = remaining ∧ out.1 = vs.reverse ++ values := by
  induction remaining generalizing number st values count with
  | zero =>
    rw [yields.pure]
    exact ⟨[], .stop, rfl, rfl⟩
  | succ remaining ih =>
    obtain ⟨⟨next, moved⟩, swept, yields⟩ := Yields.bind yields
    obtain ⟨v, drawn, yields⟩ := yields.bind
    obtain ⟨_, _, yields⟩ := yields.bind
    obtain ⟨vs, rest, length, collected⟩ := ih yields
    refine ⟨v :: vs, .sweep swept drawn rest, by rw [List.length_cons, length], ?_⟩
    rw [collected, List.reverse_cons, List.append_assoc]
    rfl

end

section

variable {σ κ D : Type} [Host (EStateM Failure σ) D Exact] {resume : Resume (EStateM Failure σ) κ D Exact}
  {entry : κ} {s : Store} {fuel : Nat} {c : Config} {st : State κ D Exact}

variable [SoundHost σ D Exact]

theorem Opened.consistent (tempered : Tempered resume (Filter.Takes σ) entry s)
    (opened : Opened resume fuel c entry s st) : Consistent resume fuel c st := by
  obtain ⟨out, estimated⟩ := opened.estimated
  have onward : Filter.Onward resume st.opening (List.replicate c.particles ⟨st.opening, Score.zero⟩) := by
    intro p member
    rw [List.eq_of_mem_replicate member]
    exact ⟨.here, Exact.zero_eq⟩
  obtain ⟨some_left, members⟩ := Filter.rounds_onward tempered opened.made rfl onward estimated.ran
  refine ⟨?_, ?_, ?_, out, estimated⟩
  · rcases opened.ends.limited le_rfl with ⟨complete, below⟩ | suspended
    · exact .inl ⟨complete, Nat.lt_one_iff.mp below⟩
    · exact .inr suspended
  · rwa [estimated.left]
  · intro p member
    rw [estimated.left] at member
    obtain ⟨alive, done, continues⟩ := members p member
    have completes := continues.completes done
    exact ⟨alive, done, completes.choices_prefix, completes⟩

/-- The value that is drawn is that of a member. -/
theorem Consistent.draws (consistent : Consistent resume fuel c st) {v : Value}
    (yields : Yields (drawValue st.population : EStateM Failure σ Value) v) :
    ∃ p ∈ st.population, p.trace.ending = .done v := by
  obtain ⟨p, member, drawn⟩ := drawValue_member yields
  obtain ⟨_, done, _, _⟩ := consistent.members p member
  obtain ⟨u, ending⟩ := Trace.ending_of_done done
  rw [Trace.value?, ending] at drawn
  refine ⟨p, member, ?_⟩
  rw [drawn]
  exact ending

/-- The chain over openings, for any program whose factors are never infinitely likely and whose choices have
finite or impossible densities. Each of its states is consistent. A sweep without a proposal, without a
survivor, or with a proposal that is refused leaves all of a state as it is, and any other replaces all of
it. What is drawn after a sweep is the value of a member, and one value is drawn after each. -/
theorem openings_consistent (tempered : Tempered resume (Filter.Takes σ) entry s) (fuel : Nat) (c : Config) :
    (∀ st, Visited resume fuel c entry s st → Consistent resume fuel c st) ∧
    (∀ st st' accepted, Yields (sweep resume fuel c st) (st', accepted) → Turn resume fuel c st st' accepted) ∧
    (∀ st v, Visited resume fuel c entry s st →
      Yields (drawValue st.population : EStateM Failure σ Value) v →
      ∃ p ∈ st.population, p.trace.ending = .done v) ∧
    ∀ M, Yields (estimate resume fuel c entry s) M → M.samples.length = c.sweeps ∧
      ∃ st, Yields (startChain resume fuel c entry s) st ∧ Proceeds resume fuel c st M.samples := by
  refine ⟨fun st visited => visited.opened.consistent tempered, fun st st' accepted => sweep_turn, ?_, ?_⟩
  · intro st v visited yields
    exact (visited.opened.consistent tempered).draws yields
  · intro M yields
    obtain ⟨st, started, yields⟩ := Yields.bind yields
    obtain ⟨⟨values, accepted⟩, swept, yields⟩ := yields.bind
    obtain ⟨vs, proceeds, length, collected⟩ := sweeps_proceed swept
    have kept : M.samples = vs := by
      rw [(Marginal.ofSamples_keeps yields.lift).1, List.reverse_eq_iff, ← List.append_nil vs.reverse]
      exact collected
    rw [kept]
    exact ⟨length, st, started, proceeds⟩

end

section

open ProbCore.Filter

theorem headsWeighed_tempered : Tempered headsResume (Takes (Careful fairCoin)) 0 .empty where
  moderate := by
    rintro cs xs s' k a x arrives
    exact (headsWeighed_bounded rfl).finite arrives
  dense arrives taken weighs := (headsWeighed_bounded rfl).dense arrives taken weighs

/-- A chain that starts at the first factor after heads. -/
theorem heads_visited : ∃ st, Visited headsResume 3 ⟨1, 1, .count 1⟩ 0 .empty st ∧
    st.opening = headsRecorded.trace := by
  obtain ⟨out, w, survives, ran⟩ := @headsRecorded_ends 1 Score.zero ⟨0, Score.ofNat 1⟩
  let st : State Nat Unit Exact :=
    ⟨headsRecorded.trace, headsRecorded.trace.likelihood + out.logMass, out.survivors⟩
  have found : findStart headsResume 3 0 .empty (some 1) (.count 1)
      (⟨[.value (.bool true), .selection [0]]⟩ : Careful fairCoin) = .ok headsRecorded.trace ⟨[.selection [0]]⟩ :=
    bind_eq_ok.mpr ⟨_, _, @heads_extend 1 [.selection [0]], rfl⟩
  have completed : complete headsResume 3 ⟨1, 1, .count 1⟩ headsRecorded.trace
      (⟨[.selection [0]]⟩ : Careful fairCoin) = .ok (st.logMass, st.population) ⟨[]⟩ :=
    bind_eq_ok.mpr ⟨out, _, ran, rfl⟩
  have kept : Host.unlessDegenerate (complete headsResume 3 ⟨1, 1, .count 1⟩ headsRecorded.trace)
      (⟨[.selection [0]]⟩ : Careful fairCoin) = .ok (some (st.logMass, st.population)) ⟨[]⟩ := by
    change Script.unlessDegenerate _ _ = _
    simp only [Script.unlessDegenerate, completed]
    rfl
  refine ⟨st, .start ⟨⟨[.value (.bool true), .selection [0]]⟩, ⟨[]⟩, ?_⟩, rfl⟩
  exact bind_eq_ok.mpr ⟨_, _, found, bind_eq_ok.mpr ⟨_, _, kept, rfl⟩⟩

/-- The opening is suspended at the first factor, and a member of the population goes on to the second. -/
theorem heads_consistent : ∃ st, Visited headsResume 3 ⟨1, 1, .count 1⟩ 0 .empty st ∧ st.opening.factors = 1 ∧
    Consistent headsResume 3 ⟨1, 1, .count 1⟩ st := by
  obtain ⟨st, visited, opening⟩ := heads_visited
  refine ⟨st, visited, ?_, (openings_consistent headsWeighed_tempered 3 ⟨1, 1, .count 1⟩).1 st visited⟩
  rw [opening]
  rfl

/-- The double `2 ^ 1023`. -/
def huge : Float := Float.ofBits 0x7FE0000000000000

/-- Two huge factors, and then the value 1. -/
def twoHuge : PlainProgram Nat Unit Float where
  entry := 0
  next
    | 0, s, _ => .ok (.factor s 1 .root huge)
    | 1, s, _ => .ok (.factor s 2 .root huge)
    | _, s, _ => .ok (.exit s (.int 1))

abbrev hugeResume : Resume (EStateM Failure (Script silent)) Nat Unit Float := twoHuge.resume

/-- How many particles a chain starts with. -/
def populationSize {σ κ D R : Type} : EStateM.Result Failure σ (State κ D R) → Option Nat
  | .ok st _ => some st.population.length
  | .error .. => none

/-- The sum of two huge factors is infinite, so that the difference made by going on to the end is no number. The
only particle is lost with a total that is not zero either, and the chain starts with nothing to draw from. -/
theorem huge_starts : ∃ st, Visited hugeResume 4 ⟨1, 1, .count 1⟩ 0 .empty st ∧ st.population = [] := by
  have left : populationSize (startChain hugeResume 4 ⟨1, 1, .count 1⟩ 0 .empty ⟨[.selection [0]]⟩) = some 0 := by
    decide +kernel
  cases started : startChain hugeResume 4 ⟨1, 1, .count 1⟩ 0 .empty ⟨[.selection [0]]⟩ with
  | ok st w =>
    rw [started] at left
    exact ⟨st, .start ⟨_, w, started⟩, List.length_eq_zero_iff.mp (Option.some.inj left)⟩
  | error e w =>
    rw [started] at left
    cases left

/-- With doubles the sum of finite scores need not be finite, and a chain can start from a state that is not
consistent. -/
theorem huge_inconsistent : Score.isFinite huge = true ∧
    ∃ st, Visited hugeResume 4 ⟨1, 1, .count 1⟩ 0 .empty st ∧
      ¬ Consistent hugeResume 4 ⟨1, 1, .count 1⟩ st := by
  obtain ⟨st, visited, nothing⟩ := huge_starts
  exact ⟨by decide +kernel, st, visited, fun consistent => consistent.some_left nothing⟩

end

end OpeningChain

end ProbCore
