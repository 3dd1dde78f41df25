import ProbCore.Proofs.ChainClosure
import ProbCore.Proofs.Likelihood
import ProbCore.Proofs.StraightFilter

/-! A filter with one particle is likelihood weighting. Its particle is resampled to itself and starts
each round with no weight, so that a round adds to the mass what its one factor adds to the likelihood.
These parts sum up to the likelihood of one execution, which is that of its factors alone: whatever its
choices weigh cancels. -/

namespace ProbCore

/-- One weight carries the information of one. -/
theorem Exact.effectiveSize_single (w : ℝ) : Score.effectiveSize [Exact.real w] = .real 1 := by
  have share : Score.shares [Exact.real w] = [.real 1] := by
    change [Score.exp (Exact.real w - .real w)] = _
    rw [Exact.real_sub, sub_self, Exact.exp_real, Real.exp_zero]
  have square : (Exact.real 1 * .real 1 : Exact) = .real 1 := congrArg Exact.real (one_mul 1)
  have single : Score.sum [Exact.real 1] = .real 1 := by
    change (Score.zero : Exact) + .real 1 = _
    rw [Exact.zero_eq, zero_add]
  rw [Score.effectiveSize, share, List.map_singleton, square, single]
  change Exact.div (.real (1 : Nat)) (.real 1) = _
  rw [Exact.div, if_neg one_ne_zero, Nat.cast_one, div_one]

/-- One value with some weight makes a point. -/
theorem Marginal.ofLogWeights_single {v : Value} {w : ℝ} {normalization : Option Exact} {samples : List Value}
    {diagnostics : List (String × Measure Exact)} {M : Marginal Value Exact}
    (made : ofLogWeights [v] [.real w] normalization samples diagnostics = .ok M) :
    M = ⟨[v], [0], normalization, samples, diagnostics⟩ := by
  cases known : v.key with
  | error e =>
    simp [ofLogWeights, groups, known, bind, Except.bind] at made
  | ok key =>
    have grouped : groups [v] [Exact.real w] = .ok [⟨key, v, [.real w]⟩] := by
      simp [groups, known, Group.insert, bind, Except.bind, pure, Except.pure]
    unfold ofLogWeights at made
    rw [grouped] at made
    have same := (Except.ok.inj made).symm
    have share : Exact.real w - Exact.real w = 0 := by rw [Exact.real_sub, sub_self, Exact.real_zero]
    change M = ⟨[v], [Exact.real w - .real w], normalization, samples, diagnostics⟩ at same
    rwa [share] at same

namespace Filter

open Kernel

section

variable {σ κ D R : Type} [Host (EStateM Failure σ) D R] [Score R]

/-- A selection has as many members as were asked for. -/
def Counted (σ : Type) {D R : Type} [Host (EStateM Failure σ) D R] : Prop :=
  ∀ weights n indices,
    Yields (Host.categorical weights n : EStateM Failure σ (List Nat)) indices → indices.length = n

/-- The world of running programs selects so. -/
theorem world_counted : Counted World := by
  rintro weights n indices ⟨w, w', returned⟩
  obtain ⟨key, middle, _, returned⟩ := bind_eq_ok.mp returned
  exact (Random.Key.selectNoisy_rows (Run.lift_eq_ok returned)).1

variable [SoundHost σ D R] {c : Config} {p : Particle κ D R} {ps : List (Particle κ D R)}

theorem select_members (counted : Counted σ) {method : Resampling} {ws : List R} (some_there : ws ≠ []) {n : Nat}
    {indices : List Nat} (yields : Yields (Particle.select method ws n : EStateM Failure σ _) indices) :
    indices.length = n ∧ ∀ i ∈ indices, i < ws.length := by
  cases method with
  | multinomial => exact ⟨counted _ _ _ yields, SoundHost.selection_inside yields⟩
  | systematic =>
    obtain ⟨offset, _, yields⟩ := Yields.bind yields
    obtain ⟨found, known, count, inside⟩ := systematic_members some_there offset n
    rw [yields.lift] at known
    obtain rfl := Except.ok.inj known
    exact ⟨count, inside⟩

/-- There is one member to select. -/
theorem select_single (counted : Counted σ) {method : Resampling} {w : R} {indices : List Nat}
    (yields : Yields (Particle.select method [w] 1 : EStateM Failure σ _) indices) : indices = [0] := by
  have selected := select_members counted (List.cons_ne_nil w []) yields
  obtain ⟨i, rfl⟩ := List.length_eq_one_iff.mp selected.1
  have first := selected.2 i List.mem_cons_self
  rw [List.length_singleton, Nat.lt_one_iff] at first
  rw [first]

theorem resample_single (counted : Counted σ) (yields : Yields (resample c [p] : EStateM Failure σ _) ps) :
    ps = [⟨p.trace, Score.zero⟩] := by
  obtain ⟨indices, selected, yields⟩ := Yields.bind yields
  obtain rfl := select_single counted selected
  exact yields.pure

end

section

variable {σ κ D : Type} [Host (EStateM Failure σ) D Exact]

variable {resume : Resume (EStateM Failure σ) κ D Exact} {entry : κ} {s : Store}

variable [SoundHost σ D Exact] {t t' : Trace κ D Exact} {p q : Particle κ D Exact} {v : Value} {fuel : Nat}
  {c : Config}

/-- A complete trace is that of an execution, and weighs what its factors do. -/
theorem made_complete (moderate : Moderate resume (Drawn σ) entry s) (made : Made False resume entry s t)
    (ending : t.ending = .done v) {l : ℝ} (likelihood : t.likelihood = .real l) :
    ∃ xs : List ℝ, Executes resume (Drawn σ) entry s (t.choices.map Choice.told) (xs.map .real) v ∧
      l = xs.sum ∧ t.factors = xs.length := by
  have closes := ((absorbed drawn_chooses).upholds_made (absorbed_begins drawn_chooses) made).closes
  obtain ⟨k, s', u, ⟨_, absorbs⟩, goes⟩ := closes.leads ending
  obtain ⟨xs, rfl⟩ := Exact.exists_reals (absorbs.reals moderate)
  have score : t.score = t.prior + (xs.map Exact.real).sum := absorbs.score
  have count : t.factors = (xs.map Exact.real).length := absorbs.count
  refine ⟨xs, ⟨t.store, k, s', u, absorbs.reaches, goes⟩, ?_, by rwa [List.length_map] at count⟩
  rw [Trace.likelihood, score, Exact.sum_reals] at likelihood
  rcases Exact.add_sub_real t.prior xs.sum with real | nan
  · exact Exact.real.inj (likelihood.symm.trans real)
  · rw [likelihood] at nan
    cases nan

/-- The particle between two rounds: its likelihood is a number, and it has no weight. -/
structure Carries (resume : Resume (EStateM Failure σ) κ D Exact) (entry : κ) (s : Store) (l : ℝ)
    (p : Particle κ D Exact) : Prop where
  made : Made False resume entry s p.trace
  likelihood : p.trace.likelihood = .real l
  weightless : p.weight = 0

/-- How one advance of such a particle ends: it is lost, it is complete, or it has absorbed one more
factor. Its weight is what its likelihood gained. -/
inductive Progress (resume : Resume (EStateM Failure σ) κ D Exact) (entry : κ) (s : Store) (l : ℝ)
    (before : Nat) (q : Particle κ D Exact) : Prop where
  | lost (dead : q.alive = false)
  | complete {l' : ℝ} (made : Made False resume entry s q.trace) (likelihood : q.trace.likelihood = .real l')
      (weight : q.weight = .real (l' - l)) (done : q.trace.done = true) (count : q.trace.factors = before)
  | weighed {l' : ℝ} (made : Made False resume entry s q.trace) (likelihood : q.trace.likelihood = .real l')
      (weight : q.weight = .real (l' - l)) (running : q.trace.done = false)
      (count : q.trace.factors = before + 1)

theorem Carries.advance (moderate : Moderate resume (Drawn σ) entry s) {l : ℝ}
    (carries : Carries resume entry s l p)
    (yields : Yields (p.advance resume fuel) q) : Progress resume entry s l p.trace.factors q := by
  have alive : p.alive = true := by
    rw [Particle.alive, carries.weightless]
    rfl
  rcases p.advance_cases yields with ⟨finished, rfl⟩ | ⟨unfinished, ⟨_, rfl⟩ | ⟨t, ran, rfl⟩⟩
  · have done : q.trace.done = true := by simpa [Particle.finished, alive] using finished
    refine .complete carries.made carries.likelihood ?_ done rfl
    rw [sub_self, Exact.real_zero]
    exact carries.weightless
  · exact .lost rfl
  have made := carries.made.extend ran
  rcases made.likelihood_moderate drawn_chooses moderate with ⟨l', likelihood⟩ | nan
  · have weight : p.weight + (t.likelihood - p.trace.likelihood) = .real (l' - l) := by
      rw [carries.weightless, likelihood, carries.likelihood, Exact.real_sub, zero_add]
    obtain ⟨k, ending⟩ : ∃ k, p.trace.ending = .suspended k := by
      cases ending : p.trace.ending with
      | done v => simp [Particle.finished, Trace.done, ending] at unfinished
      | suspended k => exact ⟨k, rfl⟩
    rcases extend_once ending ran with ⟨⟨v, complete⟩, count⟩ | ⟨⟨k', suspended⟩, count⟩
    · exact .complete made likelihood weight (by simp [Trace.done, complete]) count
    · exact .weighed made likelihood weight (by simp [Trace.done, suspended]) count
  · apply Progress.lost
    change Score.less Score.impossible (p.weight + (t.likelihood - p.trace.likelihood)) = false
    rw [carries.weightless, nan, carries.likelihood]
    rfl

theorem alive_real {w : ℝ} (weight : q.weight = .real w) : q.alive = true := by
  rw [Particle.alive, weight]
  rfl

omit [SoundHost σ D Exact] in
theorem mapM_single {α β : Type} {f : α → EStateM Failure σ β} {x : α} {ys : List β}
    (yields : Yields ([x].mapM f) ys) : ∃ y, ys = [y] ∧ Yields (f x) y := by
  rw [List.mapM_cons] at yields
  obtain ⟨y, here, yields⟩ := yields.bind
  exact ⟨y, yields.pure, here⟩

/-- What a particle that is alone adds to the mass. -/
theorem gained_single {l l' : ℝ} {more : Exact} (weight : q.weight = .real (l' - l))
    (mean : Particle.logMeanWeight [q] = .ok more) : .real l + more = .real l' := by
  rw [logMeanWeight_same (by simp) (List.forall_mem_singleton.mpr weight)] at mean
  rw [← Except.ok.inj mean, Exact.real_add, add_sub_cancel]

/-- The rounds of a single particle, which has absorbed the mass that they have found. Either it is lost in
the end, or it is the only survivor, its likelihood is the mass, and its factors are the rounds. -/
theorem rounds_single (moderate : Moderate resume (Drawn σ) entry s) (counted : Counted σ) (unmoved : c.moves = 0)
    {steps : Nat} {l : ℝ} (carries : Carries resume entry s l p) {out : Outcome κ D Exact}
    (yields : Yields (rounds resume steps c fuel [p] (.real l) ⟨p.trace.factors, .real 1⟩) out) :
    out.survivors = [] ∨ ∃ q l' w, Made False resume entry s q.trace ∧ q.trace.done = true ∧
      q.trace.likelihood = .real l' ∧ q.weight = .real w ∧
      out = ⟨.real l', [q], ⟨q.trace.factors, .real 1⟩⟩ := by
  induction fuel generalizing p l with
  | zero => exact yields.not_fail
  | succ fuel ih =>
    obtain ⟨qs, more, advanced, mean, goes⟩ := rounds_cases yields
    obtain ⟨q, rfl, went⟩ := mapM_single advanced
    simp only [List.all_cons, List.all_nil, Bool.and_true] at goes
    cases carries.advance moderate went with
    | lost dead =>
      have finished : q.finished = true := by rw [Particle.finished, dead, Bool.not_false, Bool.or_true]
      obtain ⟨_, rfl⟩ | ⟨unfinished, _⟩ := goes
      · exact .inl (List.filter_cons_of_neg (by simp [dead]))
      · cases finished.symm.trans unfinished
    | @complete l' made likelihood weight done count =>
      have finished : q.finished = true := by rw [Particle.finished, done, Bool.true_or]
      obtain ⟨_, rfl⟩ | ⟨unfinished, _⟩ := goes
      · refine .inr ⟨q, l', _, made, done, likelihood, weight, ?_⟩
        rw [gained_single weight mean, count, List.filter_cons_of_pos (alive_real weight), List.filter_nil]
      · cases finished.symm.trans unfinished
    | @weighed l' made likelihood weight running count =>
      obtain ⟨finished, _⟩ | ⟨_, drawn, moved, resampled, rejuvenated, yields⟩ := goes
      · simp [Particle.finished, running, alive_real weight] at finished
      obtain rfl := resample_single counted resampled
      rw [moveAll_unmoved unmoved] at rejuvenated
      obtain rfl := rejuvenated.pure
      have report : (⟨p.trace.factors + 1, Score.least (.real 1) (Score.effectiveSize ([q].map (·.weight)))⟩ :
          Report Exact) = ⟨q.trace.factors, .real 1⟩ := by
        rw [List.map_singleton, weight, Exact.effectiveSize_single, count, Score.least, ite_self]
      rw [report, gained_single weight mean] at yields
      exact ih (p := ⟨q.trace, Score.zero⟩) ⟨made, likelihood, Exact.zero_eq⟩ yields

end

/-- A filter with one particle that does not move, whatever it resamples by. If it returns, its answer is the
value of one complete execution, and its estimate the sum of all factors of that execution: what the
execution's score has beyond its prior. It reports as many rounds as there are factors, and a least size
of one. No factor may be infinitely likely; nothing is asked of the densities of choices. -/
theorem single_weighs {σ κ D : Type} [Host (EStateM Failure σ) D Exact] [SoundHost σ D Exact]
    {resume : Resume (EStateM Failure σ) κ D Exact} {entry : κ} {s : Store}
    (moderate : Moderate resume (Drawn σ) entry s) (counted : Counted σ) (method : Resampling) {fuel : Nat}
    {M : Marginal Value Exact} (yields : Yields (estimate resume fuel ⟨1, 0, method⟩ entry s) M) :
    ∃ (t : Trace κ D Exact) (v : Value) (xs : List ℝ), Made False resume entry s t ∧ t.ending = .done v ∧
      Executes resume (Drawn σ) entry s (t.choices.map Choice.told) (xs.map .real) v ∧
      t.factors = xs.length ∧ t.score - t.prior = .real xs.sum ∧
      M = ⟨[v], [0], some (.real xs.sum), [],
        [("rounds", .count xs.length), ("min_ess", .rate (.real 1))]⟩ := by
  obtain ⟨out, ran, yields⟩ := Yields.bind yields
  have made := yields.lift
  have begins : Carries resume entry s 0 (⟨.start entry s, .real 0⟩ : Particle κ D Exact) := by
    refine ⟨.start, ?_, rfl⟩
    change (Score.zero : Exact) - Score.zero = _
    rw [Exact.zero_eq, sub_zero, Exact.real_zero]
  have report : (Score.ofNat 1 : Exact) = .real 1 := congrArg Exact.real Nat.cast_one
  unfold run at ran
  rw [Exact.zero_eq, ← Exact.real_zero, List.length_replicate, report] at ran
  rcases rounds_single moderate counted rfl begins ran with
    none_left | ⟨q, l, w, traced, done, likelihood, weight, rfl⟩
  · rw [none_left] at made
    cases made
  · obtain ⟨v, ending⟩ := Trace.ending_of_done done
    obtain ⟨xs, executes, rfl, count⟩ := made_complete moderate traced ending likelihood
    refine ⟨q.trace, v, xs, traced, ending, executes, count, likelihood, ?_⟩
    simp only [List.map_singleton, weight, Trace.value?, ending, Option.getD_some, Report.diagnostics, count] at made
    exact Marginal.ofLogWeights_single made

section

theorem careful_counted {laws : Densities D R} [Score R] : Counted (Careful laws) := by
  rintro weights n indices ⟨w, w', drew⟩
  obtain ⟨next, _, chosen⟩ := Script.take_eq_ok.mp drew
  unfold Careful.weightyFrom at chosen
  split at chosen
  next =>
    split at chosen
    next both =>
      cases chosen
      exact both.1
    next => cases chosen
  next => cases chosen

theorem headsWeighed_moderate : Moderate headsResume (Drawn (Careful fairCoin)) 0 .empty := by
  rintro cs xs s' k a x ⟨_, _, _, _, goes⟩
  rcases headsWeighed_steps goes with ⟨_, same⟩ | ⟨_, same⟩ | ⟨_, same⟩ | same
  all_goals cases same
  · exact nofun
  · exact nofun

/-- Heads, suspended at the second factor, and with what it returns. -/
noncomputable def headsTwice : Trace Nat Unit Exact :=
  ⟨headsRecorded.trace.choices, headsRecorded.trace.score + .real 2, headsRecorded.trace.prior, 2, .empty,
    .suspended 3⟩

noncomputable def headsDone : Trace Nat Unit Exact := { headsTwice with ending := .done .absent }

/-- The rounds of heads end with one survivor that has some weight. -/
def HeadsEnd (fuel : Nat) (p : Particle Nat Unit Exact) (draws : List (Draw Exact)) : Prop :=
  ∀ mass report, ∃ out, ∃ w : ℝ, out.survivors = [⟨headsDone, .real w⟩] ∧
    rounds headsResume 3 ⟨1, 0, .multinomial⟩ fuel [p] mass report (⟨draws⟩ : Careful fairCoin) = .ok out ⟨[]⟩

theorem HeadsEnd.resampled {p q : Particle Nat Unit Exact} {w : ℝ} {fuel : Nat} {draws rest : List (Draw Exact)}
    (advanced : p.advance headsResume 3 (⟨draws⟩ : Careful fairCoin) = .ok q ⟨.selection [0] :: rest⟩)
    (weight : q.weight = .real w) (running : q.trace.done = false)
    (later : HeadsEnd fuel ⟨q.trace, Score.zero⟩ rest) : HeadsEnd (fuel + 1) p draws := by
  intro mass report
  have unfinished : [q].all Particle.finished = false := by
    simp [Particle.finished, running, alive_real weight]
  have selects : (Host.categorical ([q].map (·.weight)) 1 : EStateM Failure (Careful fairCoin) _)
      ⟨.selection [0] :: rest⟩ = .ok [0] ⟨rest⟩ := by
    rw [List.map_singleton, weight]
    refine Script.take_eq_ok.mpr ⟨_, rfl, if_pos ⟨rfl, fun i member => ?_⟩⟩
    obtain rfl := List.mem_singleton.mp member
    exact ⟨_, rfl, rfl⟩
  have mean : Particle.logMeanWeight [q] = .ok (.real w) :=
    logMeanWeight_same (by simp) (List.forall_mem_singleton.mpr weight)
  obtain ⟨out, w', survives, ran⟩ := later (mass + .real w)
    ⟨report.rounds + 1, Score.least report.leastSize (Score.effectiveSize ([q].map (·.weight)))⟩
  refine ⟨out, w', survives, ?_⟩
  rw [rounds_succ]
  refine bind_eq_ok.mpr ⟨[q], ⟨.selection [0] :: rest⟩, ?_, ?_⟩
  · rw [List.mapM_cons]
    exact bind_eq_ok.mpr ⟨_, _, advanced, rfl⟩
  rw [if_neg (by simp [unfinished])]
  refine bind_eq_ok.mpr ⟨_, _, lift_eq_ok.mpr ⟨mean, rfl⟩, ?_⟩
  refine bind_eq_ok.mpr ⟨_, _, bind_eq_ok.mpr ⟨[0], _, selects, rfl⟩, ?_⟩
  refine bind_eq_ok.mpr ⟨_, _, rfl, ?_⟩
  exact bind_eq_ok.mpr ⟨_, _, rfl, ran⟩

theorem headsTwice_ends {fuel : Nat} : HeadsEnd (fuel + 1) ⟨headsTwice, Score.zero⟩ [] := by
  intro mass report
  let q : Particle Nat Unit Exact := ⟨headsDone, Score.zero + (headsDone.likelihood - headsTwice.likelihood)⟩
  refine ⟨⟨mass + (Score.logSumExp [q.weight] - Score.logNat 1), [q], report⟩, _, rfl, ?_⟩
  refine bind_eq_ok.mpr ⟨[q], ⟨[]⟩, ?_, rfl⟩
  rw [List.mapM_cons]
  exact bind_eq_ok.mpr ⟨q, _, bind_eq_ok.mpr ⟨some headsDone, _, rfl, rfl⟩, rfl⟩

theorem headsRecorded_ends {fuel : Nat} :
    HeadsEnd (fuel + 2) ⟨headsRecorded.trace, Score.zero⟩ [.selection [0]] := by
  refine .resampled (q := ⟨headsTwice, Score.zero + (headsTwice.likelihood - headsRecorded.trace.likelihood)⟩)
    ?_ rfl rfl headsTwice_ends
  exact bind_eq_ok.mpr ⟨some headsTwice, _, rfl, rfl⟩

theorem heads_begun :
    HeadsEnd 3 ⟨.start 0 .empty, Score.zero⟩ [.value (.bool true), .selection [0], .selection [0]] := by
  let began : Trace Nat Unit Exact := .start 0 .empty
  refine .resampled
    (q := ⟨headsRecorded.trace, Score.zero + (headsRecorded.trace.likelihood - began.likelihood)⟩)
    ?_ rfl rfl headsRecorded_ends
  have begins := @heads_extend 1 [.selection [0], .selection [0]]
  exact bind_eq_ok.mpr ⟨_, _, begins, rfl⟩

/-- Heads, then both factors, with the particle selected twice. -/
theorem heads_alone : ∃ M, Yields (estimate headsResume 3 ⟨1, 0, .multinomial⟩ 0 .empty) M ∧
    ∃ (xs : List ℝ) (v : Value), M.values = [v] ∧ M.normalization = some (.real xs.sum) ∧
      M.diagnostics = [("rounds", .count xs.length), ("min_ess", .rate (.real 1))] := by
  obtain ⟨out, w, survives, ran⟩ := heads_begun Score.zero ⟨0, Score.ofNat 1⟩
  obtain ⟨M, made⟩ : ∃ M, Marginal.ofLogWeights [.absent] [.real w] (some out.logMass) []
      out.report.diagnostics = .ok M := ⟨_, rfl⟩
  have yields : Yields (estimate headsResume 3 ⟨1, 0, .multinomial⟩ 0 .empty) M := by
    refine ⟨_, ⟨[]⟩, bind_eq_ok.mpr ⟨out, _, ran, ?_⟩⟩
    rw [survives]
    exact lift_eq_ok.mpr ⟨made, rfl⟩
  obtain ⟨t, v, xs, _, _, _, _, _, rfl⟩ :=
    single_weighs headsWeighed_moderate careful_counted .multinomial yields
  exact ⟨_, yields, xs, v, rfl, rfl, rfl⟩

end

end Filter

end ProbCore
