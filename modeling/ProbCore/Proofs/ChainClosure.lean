import ProbCore.Strategy.Chain
import ProbCore.Proofs.RatioAccounting
import ProbCore.Proofs.ScoreBounds

/-! The states that a chain of moves visits, for any program. Under a limit each is complete with
fewer factors absorbed, or suspended at the factor that reaches the limit; without one all are
complete. Their scores are numbers above the impossible one, so that a chain never has to read the
value of a suspended trace. -/

namespace ProbCore

open Kernel

variable {σ κ D R : Type} [Host (EStateM Failure σ) D R] [Score R]

/-- The states of a chain: one that is found by simulation, and those to which moves lead. -/
inductive Visits (resume : Resume (EStateM Failure σ) κ D R) (entry : κ) (s : Store)
    (limit : Option Nat) : Trace κ D R → Prop where
  | found {t fuel attempts} (yields : Yields (findStart resume fuel entry s limit attempts) t) :
      Visits resume entry s limit t
  | moved {t t' fuel accepted} (visits : Visits resume entry s limit t)
      (yields : Yields (move resume fuel t limit) (t', accepted)) : Visits resume entry s limit t'

/-- What moves keep of a state: it ends as the limit has it, no choice was made after that, and its
score is a number above the impossible one. -/
structure WellEnded (limit : Option Nat) (t : Trace κ D R) : Prop where
  ends : Ends limit t.factors t.ending
  running : ∀ c ∈ t.choices, Running limit c.factors
  massive : tolerable t.score = true

variable {resume : Resume (EStateM Failure σ) κ D R} {entry : κ} {s : Store} {limit : Option Nat}
  {fuel : Nat} {t t' : Trace κ D R} {accepted : Bool}

section

variable [SoundHost σ D R]

omit [SoundHost σ D R] in
/-- Executions absorb factors, and lose none. -/
theorem Kernel.Makes.factors_le {old : Option (Trace κ D R)} {tape : Recording κ D R} {step : Step κ D R}
    {out : Recorded κ D R} (makes : Makes resume limit old tape step out) :
    tape.factors ≤ out.trace.factors := by
  induction makes with
  | exit => exact le_rfl
  | suspend fine stop => exact Nat.le_succ _
  | factor fine running goes makes ih => exact Nat.le_of_succ_le ih
  | choice offered weighs possible goes makes ih => exact ih

/-- How a proposal ends, when no choice of the old trace was made after it was stopped. -/
theorem Kernel.regenerate_ends {r : R} (running : ∀ c ∈ t.choices, Running limit c.factors)
    (yields : Yields (regenerate resume fuel t limit) (some (t', r))) :
    Ends limit t'.factors t'.ending ∧ ∀ c ∈ t'.choices, Running limit c.factors := by
  obtain ⟨before, c, after, v, lp, step, out, reused, fresh, parts, _, _, _, _, makes, rfl⟩ :=
    regenerate_makes yields
  have site : Running limit c.factors := running c (by simp [parts])
  refine ⟨makes.ends site, makes.choices_running site ?_⟩
  refine List.forall_mem_cons.mpr ⟨site, fun b member => running b ?_⟩
  rw [parts]
  exact List.mem_append_left _ (List.mem_reverse.mp member)

theorem Kernel.simulate_ends (yields : Yields (simulate resume fuel entry s limit) (some t)) :
    Ends limit t.factors t.ending ∧ ∀ c ∈ t.choices, Running limit c.factors := by
  rcases extend_makes yields with ⟨v, ending, _⟩ | ⟨k, step, out, _, _, makes, rfl⟩
  · cases ending
  · exact ⟨makes.ends (.inl rfl), makes.choices_running (.inl rfl) nofun⟩

end

section

variable [LawfulHost σ D R] [SoundHost σ D R] [LawfulScore R] [BoundedScore R]

omit [SoundHost σ D R] in
/-- A ratio can only be reached by a proposal whose score is a number above the impossible one. -/
theorem Kernel.regenerate_massive {r u : R} (yields : Yields (regenerate resume fuel t limit) (some (t', r)))
    (below : Score.less u r = true) : tolerable t'.score = true := by
  obtain ⟨w, w', returned⟩ := yields
  rcases regenerate_redraws returned with ⟨nothing, _⟩ | ⟨i, c, c', ds, verdict, middle, _, _, _, same⟩
  · cases nothing
  cases verdict with
  | atChoice d => cases same
  | atFactor x => cases same
  | recorded out =>
    cases same
    -- The ratio is a difference, whose first part starts with the difference of the scores.
    have gained := LawfulScore.tolerable_left (LawfulScore.tolerable_of_less below)
    rw [← BoundedScore.less_impossible] at gained
    exact LawfulScore.tolerable_of_less gained

/-- Moves lead from well-ended states to others. -/
theorem WellEnded.move (state : WellEnded limit t)
    (yields : Yields (Kernel.move resume fuel t limit) (t', accepted)) : WellEnded limit t' := by
  rcases move_cases yields with ⟨rfl, _⟩ | ⟨_, r, u, regenerated, below⟩
  · exact state
  · obtain ⟨ends, running⟩ := regenerate_ends state.running regenerated
    exact ⟨ends, running, regenerate_massive regenerated below⟩

/-- Every state that a chain visits is well-ended. -/
theorem Visits.wellEnded (visits : Visits resume entry s limit t) : WellEnded limit t := by
  induction visits with
  | found yields =>
    obtain ⟨simulated, above⟩ := findStart_yields yields
    obtain ⟨ends, running⟩ := simulate_ends simulated
    rw [BoundedScore.less_impossible] at above
    exact ⟨ends, running, above⟩
  | moved _ yields ih => exact ih.move yields

end

/-- What holds of every state of a chain under a limit. -/
structure Closed (resume : Resume (EStateM Failure σ) κ D R) (limit : Option Nat) (t : Trace κ D R) :
    Prop where
  complete : limit = none → ∃ v, t.ending = .done v
  limited : ∀ L, limit = some L → (∃ v, t.ending = .done v) ∧ t.factors < L ∨
    (∃ k, t.ending = .suspended k) ∧ t.factors = L
  above : Score.less Score.impossible t.score = true
  number : Score.isNaN t.score = false
  rejected : ∀ fuel t', Yields (move resume fuel t limit) (t', false) → t' = t
  still : t.choices = [] → ∀ fuel, move resume fuel t limit = pure (t, false)
  extended : ∀ L k, limit = some L → t.ending = .suspended k → ∀ fuel t',
    Yields (extend resume fuel t (some (L + 1))) (some t') →
    (∃ v, t'.ending = .done v) ∧ t'.factors = t.factors ∨
      (∃ k, t'.ending = .suspended k) ∧ t'.factors = t.factors + 1

omit [Host (EStateM Failure σ) D R] [Score R] in
theorem Kernel.Ends.complete (ends : Ends none t.factors t.ending) : ∃ v, t.ending = .done v := by
  cases ending : t.ending with
  | done v => exact ⟨v, rfl⟩
  | suspended k =>
    rw [ending] at ends
    obtain ⟨m, _, _, stop⟩ := ends
    cases stop

omit [Host (EStateM Failure σ) D R] [Score R] in
theorem Kernel.Ends.limited {L : Nat} (positive : 1 ≤ L) (ends : Ends (some L) t.factors t.ending) :
    (∃ v, t.ending = .done v) ∧ t.factors < L ∨ (∃ k, t.ending = .suspended k) ∧ t.factors = L := by
  cases ending : t.ending with
  | done v =>
    rw [ending] at ends
    refine .inl ⟨⟨v, rfl⟩, ?_⟩
    rcases ends with none_absorbed | running
    · omega
    · simpa [stops] using running
  | suspended k =>
    rw [ending] at ends
    obtain ⟨m, last, running, stop⟩ := ends
    refine .inr ⟨⟨k, rfl⟩, ?_⟩
    simp only [stops, Option.any_some, decide_eq_true_eq] at stop
    rcases running with zero | running
    · omega
    · simp only [stops, Option.any_some, decide_eq_false_iff_not] at running
      omega

/-- A trace that is suspended at a limit absorbs one more factor at most under the next one. -/
theorem Kernel.extend_once [SoundHost σ D R] {k : κ} (ending : t.ending = .suspended k)
    (yields : Yields (extend resume fuel t (some (t.factors + 1))) (some t')) :
    (∃ v, t'.ending = .done v) ∧ t'.factors = t.factors ∨
      (∃ k, t'.ending = .suspended k) ∧ t'.factors = t.factors + 1 := by
  rcases extend_makes yields with ⟨v, complete, _⟩ | ⟨k, step, out, _, _, makes, rfl⟩
  · rw [ending] at complete
    cases complete
  have more := makes.factors_le
  dsimp only at more
  have running : Running (some (t.factors + 1)) t.factors := .inr (by simp [stops])
  rcases (makes.ends running).limited (Nat.succ_pos _) with ⟨complete, below⟩ | ⟨suspended, at_limit⟩
  · refine .inl ⟨complete, ?_⟩
    omega
  · exact .inr ⟨suspended, at_limit⟩

theorem WellEnded.closed [SoundHost σ D R] [BoundedScore R] (positive : ∀ L, limit = some L → 1 ≤ L)
    (state : WellEnded limit t) : Closed resume limit t where
  complete unlimited := by
    have ends := state.ends
    rw [unlimited] at ends
    exact ends.complete
  limited L limited := by
    have ends := state.ends
    rw [limited] at ends
    exact ends.limited (positive L limited)
  above := by
    rw [BoundedScore.less_impossible]
    exact state.massive
  number := by
    have massive := state.massive
    rw [tolerable, Bool.not_eq_true', Bool.or_eq_false_iff] at massive
    exact massive.2
  rejected fuel t' yields := by
    rcases move_cases yields with ⟨same, _⟩ | ⟨accepted, _⟩
    · exact same
    · cases accepted
  still none_there fuel := move_still none_there fuel limit
  extended L k limited ending fuel t' yields := by
    have ends := state.ends
    rw [limited] at ends
    rcases ends.limited (positive L limited) with ⟨⟨v, complete⟩, _⟩ | ⟨_, at_limit⟩
    · rw [ending] at complete
      cases complete
    · rw [← at_limit] at yields
      exact extend_once ending yields

namespace Chain

/-- The chain's moves, where the value of a state is read in some way. -/
def walkReading (read : Trace κ D R → EStateM Failure σ Value) (resume : Resume (EStateM Failure σ) κ D R)
    (fuel : Nat) (c : Config) :
    Nat → Nat → Trace κ D R → List Value → Nat → EStateM Failure σ (List Value × Nat)
  | 0, _, _, values, accepted => pure (values, accepted)
  | remaining + 1, step, t, values, accepted => do
    let (t, moved) ← Kernel.move resume fuel t none
    let accepted := if moved then accepted + 1 else accepted
    if c.records step then
      walkReading read resume fuel c remaining (step + 1) t ((← read t) :: values) accepted
    else walkReading read resume fuel c remaining (step + 1) t values accepted

def estimateReading (read : Trace κ D R → EStateM Failure σ Value)
    (resume : Resume (EStateM Failure σ) κ D R) (fuel : Nat) (c : Config) (entry : κ) (s : Store) :
    EStateM Failure σ (Marginal Value R) := do
  let t ← Kernel.findStart resume fuel entry s none c.startAttempts
  let (values, accepted) ← walkReading read resume fuel c c.steps 0 t [] 0
  let rate : R := Score.ofNat accepted / Score.ofNat c.steps
  if c.verbose then Host.note (.acceptance (Score.toFloat rate) c.steps)
  Host.lift (Marginal.ofSamples values.reverse none [("acceptance_rate", .rate rate)])

theorem walkReading_exitValue {c : Config} {remaining step count : Nat} {values : List Value} :
    walkReading exitValue resume fuel c remaining step t values count =
      walk resume fuel c remaining step t values count := by
  induction remaining generalizing step t values count with
  | zero => rfl
  | succ remaining ih =>
    unfold walkReading walk
    simp only [ih]

theorem estimateReading_exitValue {c : Config} :
    estimateReading exitValue resume fuel c entry s = estimate resume fuel c entry s := by
  unfold estimateReading estimate
  simp only [walkReading_exitValue]

variable [LawfulHost σ D R] [SoundHost σ D R] [LawfulScore R] [BoundedScore R]
  {read : Trace κ D R → EStateM Failure σ Value}

/-- All states of a chain without a limit are complete, and only these are read. -/
theorem walkReading_eq (complete : ∀ t v, t.ending = .done v → read t = pure v)
    (visits : Visits resume entry s none t) {c : Config} {remaining step count : Nat} {values : List Value} :
    walkReading read resume fuel c remaining step t values count =
      walk resume fuel c remaining step t values count := by
  induction remaining generalizing step t values count with
  | zero => rfl
  | succ remaining ih =>
    unfold walkReading walk
    refine bind_congr_yields fun moved yields => ?_
    have visits' : Visits resume entry s none moved.1 := visits.moved yields
    obtain ⟨v, ending⟩ := visits'.wellEnded.ends.complete
    have same : read moved.1 = exitValue moved.1 := by
      rw [complete _ v ending, exitValue, ending]
    simp only [same, ih visits']

theorem estimateReading_eq (complete : ∀ t v, t.ending = .done v → read t = pure v) {c : Config} :
    estimateReading read resume fuel c entry s = estimate resume fuel c entry s := by
  unfold estimateReading estimate
  refine bind_congr_yields fun t yields => ?_
  rw [walkReading_eq complete (.found yields)]

end Chain

/-- The states of a chain, for any program. Under a limit each is complete below it or suspended at it,
and absorbs one more factor at most when it is extended by one; without a limit all are complete. Their
scores are numbers above the impossible one. A rejected move stays where it is, and a state without
choices never changes. The estimate of a chain is the same however a suspended trace would be read,
since none comes to be. -/
theorem chain_closed [LawfulHost σ D R] [SoundHost σ D R] [LawfulScore R] [BoundedScore R]
    (resume : Resume (EStateM Failure σ) κ D R) (entry : κ) (s : Store) :
    (∀ (limit : Option Nat) (t : Trace κ D R), (∀ L, limit = some L → 1 ≤ L) →
      Visits resume entry s limit t → Closed resume limit t) ∧
    ∀ (read : Trace κ D R → EStateM Failure σ Value), (∀ t v, t.ending = .done v → read t = pure v) →
      ∀ fuel c, Chain.estimateReading exitValue resume fuel c entry s = Chain.estimate resume fuel c entry s ∧
        Chain.estimateReading read resume fuel c entry s = Chain.estimate resume fuel c entry s :=
  ⟨fun _ _ positive visits => visits.wellEnded.closed positive,
    fun _ complete _ _ => ⟨Chain.estimateReading_exitValue, Chain.estimateReading_eq complete⟩⟩

namespace CoinTwice

/-- Reads complete traces only. -/
noncomputable def completeOnly (t : Trace Nat Unit Exact) : EStateM Failure (Careful fairCoin) Value :=
  match t.ending with
  | .done v => pure v
  | .suspended _ => throw .noSuchPosition

theorem visited : Visits CoinTwice.resume 0 .empty none tossedBoth.trace := by
  have found : Yields (findStart CoinTwice.resume 3 0 .empty none (.count 1)) tossedBoth.trace :=
    ⟨_, _, bind_eq_ok.mpr ⟨_, _, simulates, rfl⟩⟩
  exact .found found

end CoinTwice

/-- A chain over the tosses of a coin, from both tosses on. -/
theorem tosses_closed : Closed CoinTwice.resume none CoinTwice.tossedBoth.trace ∧
    ∀ fuel c, Chain.estimateReading CoinTwice.completeOnly CoinTwice.resume fuel c 0 .empty =
      Chain.estimate CoinTwice.resume fuel c 0 .empty := by
  obtain ⟨closed, reads⟩ := chain_closed CoinTwice.resume 0 .empty
  refine ⟨closed none _ nofun CoinTwice.visited, fun fuel c => (reads _ ?_ fuel c).2⟩
  intro t v ending
  rw [CoinTwice.completeOnly, ending]

end ProbCore
