import ProbCore.Proofs.CarefulScript
import ProbCore.Proofs.Executions
import ProbCore.Proofs.StrategyValues

/-! The particles of a filter move in lockstep. After each advance those that are not finished
are suspended at one and the same factor, and resampling and rejuvenation leave them there. A
program whose executions absorb few factors is therefore filtered in few rounds. -/

namespace ProbCore.Filter

open Kernel

variable {σ κ D : Type} [Host (EStateM Failure σ) D Exact]

def Takes (σ : Type) [Host (EStateM Failure σ) D Exact] (d : D) (v : Value) : Prop :=
  Choosable σ d v ∧ HasMass σ d v

/-- Executions absorb at most so many factors. No factor is infinitely likely, and the log
densities of choices are finite or impossible. -/
structure Bounded (resume : Resume (EStateM Failure σ) κ D Exact) (entry : κ) (s : Store)
    (most : Nat) : Prop where
  few {cs : List (Address × D × Value)} {xs : List Exact} {k : κ} {s' : Store} {v : Value} :
    Reaches resume (Takes σ) entry s cs xs k s' v → (∀ x ∈ xs, tolerable x = true) → xs.length ≤ most
  dense {cs : List (Address × D × Value)} {xs : List Exact} {s' : Store} {k : κ} {a : Address} {d : D}
      {v : Value} {lp : Exact} :
    Arrives resume (Takes σ) entry s cs xs (.sample s' k a d) → Takes σ d v →
      Yields (Host.logDensity d v : EStateM Failure σ Exact) lp → lp.IsReal ∨ lp = .negInf
  finite {cs : List (Address × D × Value)} {xs : List Exact} {s' : Store} {k : κ} {a : Address}
      {x : Exact} :
    Arrives resume (Takes σ) entry s cs xs (.factor s' k a x) → x ≠ .posInf

/-- While some weight is left, no member without weight is selected. -/
def Selective (σ : Type) [Host (EStateM Failure σ) D Exact] (method : Resampling) : Prop :=
  ∀ weights n indices,
    Yields (Particle.select method weights n : EStateM Failure σ (List Nat)) indices →
      (∃ w ∈ weights, w ≠ Exact.negInf) → ∀ i ∈ indices, weights[i]? ≠ some .negInf

section

variable {resume : Resume (EStateM Failure σ) κ D Exact} {entry : κ} {s : Store} {most : Nat}

theorem real_of_tolerable {x : Exact} (fine : tolerable x = true) (finite : x ≠ .posInf) : x.IsReal := by
  cases x with
  | real x => exact ⟨x, rfl⟩
  | posInf => exact absurd rfl finite
  | negInf => cases fine
  | nan => cases fine

theorem real_of_possible {x : Exact} (possible : Score.isImpossible x = false)
    (dense : x.IsReal ∨ x = .negInf) : x.IsReal := by
  rcases dense with real | rfl
  · exact real
  · cases possible

theorem real_tolerable (x : ℝ) : tolerable (Exact.real x) = true := rfl

/-- The account of an execution that has absorbed these factors: its totals are those of its
choices and of these factors. -/
structure Tallies (resume : Resume (EStateM Failure σ) κ D Exact) (entry : κ) (s : Store)
    (xs : List ℝ) (cs : List (Choice κ D Exact)) (T : Totals Exact) (k : κ) (s' : Store) (v : Value) :
    Prop where
  reaches : Reaches resume (Takes σ) entry s (cs.map Choice.told) (xs.map .real) k s' v
  totals : ∃ p, T = ⟨.real (p + xs.sum), .real p, xs.length⟩
  earlier : ∀ c ∈ cs, c.factors ≤ T.factors

/-- Executions that go on from one that has absorbed the factors `xs`. -/
def tally (bounded : Bounded resume entry s most) (xs : List ℝ) : Invariant True resume where
  holds cs T k s' v := ∃ ys, Tallies resume entry s (xs ++ ys) cs T k s' v
  fair _ := True
  choose {cs T k k' s₁ s₂ u v a d lp} held goes offered weighs possible := by
    obtain ⟨ys, reaches, ⟨p, rfl⟩, earlier⟩ := held
    have taken : Takes σ d v := ⟨offered.choosable, lp, weighs, possible⟩
    have dense := bounded.dense ⟨k, s₁, u, reaches, goes⟩ taken weighs
    obtain ⟨l, rfl⟩ := real_of_possible possible dense
    refine ⟨trivial, ys, ?_, ⟨p + l, ?_⟩, ?_⟩
    · rw [List.map_append]
      exact reaches.choose goes taken
    · simp only [Totals.choose, Exact.real_add, Totals.mk.injEq, Exact.real.injEq, and_true]
      exact add_right_comm p _ l
    · intro c member
      rcases List.mem_append.mp member with member | member
      · exact earlier c member
      · obtain rfl := List.mem_singleton.mp member
        exact le_refl _
  absorb {cs T k k' s₁ s₂ u a x} held goes fine := by
    obtain ⟨ys, reaches, ⟨p, rfl⟩, earlier⟩ := held
    obtain ⟨x, rfl⟩ := real_of_tolerable fine (bounded.finite ⟨k, s₁, u, reaches, goes⟩)
    refine ⟨ys ++ [x], ?_, ⟨p, ?_⟩, ?_⟩
    · rw [← List.append_assoc, List.map_append]
      exact reaches.absorb goes
    · simp only [Totals.absorb, Exact.real_add, Totals.mk.injEq, Exact.real.injEq, true_and]
      constructor
      · rw [← List.append_assoc, (xs ++ ys).sum_append, List.sum_singleton, add_assoc]
      · rw [← List.append_assoc, (xs ++ ys).length_append, List.length_singleton]
    · intro c member
      exact Nat.le_succ_of_le (earlier c member)

theorem tally_begins (bounded : Bounded resume entry s most) :
    (tally bounded []).holds [] .zero entry s .absent := by
  refine ⟨[], .start, ⟨0, ?_⟩, nofun⟩
  simp only [Totals.zero, List.nil_append, List.sum_nil, add_zero, Exact.zero_eq]
  rfl

variable [SoundHost σ D Exact] {t t' : Trace κ D Exact} {p q : Particle κ D Exact} {n limit fuel : Nat}
  {c : Config}

omit [SoundHost σ D Exact] in
theorem Tallies.factors_le (bounded : Bounded resume entry s most) {xs : List ℝ}
    {cs : List (Choice κ D Exact)} {T : Totals Exact} {k : κ} {s' : Store} {v : Value}
    (tallies : Tallies resume entry s xs cs T k s' v) : T.factors ≤ most := by
  obtain ⟨_, rfl⟩ := tallies.totals
  have few := bounded.few tallies.reaches (List.forall_mem_map.mpr fun x _ => real_tolerable x)
  rwa [List.length_map] at few

theorem likelihood_eq {xs : List ℝ} {p : ℝ} {n : Nat}
    (totals : t.totals = ⟨.real (p + xs.sum), .real p, n⟩) : t.likelihood = .real xs.sum := by
  have score : t.score = .real (p + xs.sum) := congrArg Totals.score totals
  have prior : t.prior = .real p := congrArg Totals.prior totals
  rw [Trace.likelihood, score, prior, Exact.real_sub, add_sub_cancel_left]

/-- A trace of the program on its way from the factor `n`: none of it lies beyond. -/
structure Waits (resume : Resume (EStateM Failure σ) κ D Exact) (entry : κ) (s : Store) (n : Nat)
    (t : Trace κ D Exact) : Prop where
  made : Made True resume entry s t
  choices : ∀ c ∈ t.choices, c.factors ≤ n
  within : t.factors ≤ n
  suspended {k : κ} : t.ending = .suspended k → t.factors = n

/-- A trace that was taken up to a limit: it was done before it, or is suspended at it. -/
structure Stands (resume : Resume (EStateM Failure σ) κ D Exact) (entry : κ) (s : Store) (limit : Nat)
    (t : Trace κ D Exact) : Prop where
  made : Made True resume entry s t
  choices : ∀ c ∈ t.choices, c.factors < limit
  done {v : Value} : t.ending = .done v → t.factors < limit
  suspended {k : κ} : t.ending = .suspended k → t.factors = limit

omit [SoundHost σ D Exact] in
theorem Stands.waits (stands : Stands resume entry s limit t) : Waits resume entry s limit t where
  made := stands.made
  choices c member := (stands.choices c member).le
  within := by
    cases ending : t.ending with
    | done v => exact (stands.done ending).le
    | suspended k => exact (stands.suspended ending).le
  suspended := stands.suspended

theorem Waits.of_made (bounded : Bounded resume entry s most) (made : Made True resume entry s t) :
    Waits resume entry s t.factors t where
  made := made
  choices := by
    have closes := ((tally bounded []).upholds_made (tally_begins bounded) made).closes
    cases ending : t.ending with
    | done v =>
      obtain ⟨_, _, _, ⟨_, tallies⟩, _⟩ := closes.leads ending
      exact tallies.earlier
    | suspended k =>
      obtain ⟨_, tallies⟩ := closes.holds ending
      exact tallies.earlier
  within := le_refl _
  suspended _ := rfl

omit [SoundHost σ D Exact] in
theorem running_below (positive : 0 < limit) (running : Running (some limit) n) : n < limit := by
  rcases running with rfl | running
  · exact positive
  · simpa [stops] using running

theorem running_of_lt (below : n < limit) : Running (some limit) n := .inr (by simpa [stops] using below)

omit [SoundHost σ D Exact] in
/-- What the kernel makes under a limit, from a tape that has not reached it. -/
theorem Stands.of_makes {old : Option (Trace κ D Exact)} {tape : Recording κ D Exact}
    {step : Step κ D Exact} {out : Recorded κ D Exact} (makes : Makes resume (some limit) old tape step out)
    (made : Made True resume entry s out.trace) (positive : 0 < limit) (below : tape.factors < limit)
    (choices : ∀ c ∈ tape.choices, c.factors < limit) : Stands resume entry s limit out.trace where
  made := made
  choices c member := running_below positive
    (makes.choices_running (running_of_lt below) (fun c member => running_of_lt (choices c member)) c member)
  done {v} ending := by
    have ends := makes.ends (running_of_lt below)
    rw [ending] at ends
    exact running_below positive ends
  suspended {k} ending := by
    have ends := makes.ends (running_of_lt below)
    rw [ending] at ends
    obtain ⟨m, same, running, stopped⟩ := ends
    have lower := running_below positive running
    have upper : limit ≤ out.trace.factors := by simpa [stops] using stopped
    omega

/-- A particle after an advance to the factor `limit`. -/
inductive Advanced (resume : Resume (EStateM Failure σ) κ D Exact) (entry : κ) (s : Store)
    (limit : Nat) (p : Particle κ D Exact) : Prop where
  | dead (weight : p.weight = .negInf)
  | done (finished : p.trace.done = true) (before : p.trace.factors < limit) (weight : p.weight = 0)
  | suspended {k : κ} {xs : List ℝ} {x : ℝ} (ending : p.trace.ending = .suspended k)
      (factors : p.trace.factors = limit) (count : (xs ++ [x]).length = limit)
      (reaches : Reaches resume (Takes σ) entry s (p.trace.choices.map Choice.told)
        ((xs ++ [x]).map .real) k p.trace.store .absent)
      (weight : p.weight = .real x)

omit [SoundHost σ D Exact] in
theorem Waits.stands_of_done (waits : Waits resume entry s n t) (complete : t.done = true) :
    Stands resume entry s (n + 1) t where
  made := waits.made
  choices c member := Nat.lt_succ_of_le (waits.choices c member)
  done _ := Nat.lt_succ_of_le waits.within
  suspended {k} ending := by
    rw [Trace.done, ending] at complete
    cases complete

/-- What is suspended at the factor `n` has absorbed `n` factors, which are its likelihood. -/
theorem Waits.tallies {k : κ} (bounded : Bounded resume entry s most) (waits : Waits resume entry s n t)
    (ending : t.ending = .suspended k) :
    ∃ xs : List ℝ, xs.length = n ∧ t.likelihood = .real xs.sum ∧
      Tallies resume entry s xs t.choices t.totals k t.store .absent := by
  obtain ⟨xs, tallies⟩ := ((tally bounded []).upholds_made (tally_begins bounded) waits.made).closes.holds ending
  rw [List.nil_append] at tallies
  obtain ⟨prior, totals⟩ := tallies.totals
  refine ⟨xs, ?_, likelihood_eq totals, tallies⟩
  rw [← waits.suspended ending]
  exact (congrArg Totals.factors totals).symm

omit [SoundHost σ D Exact] in
/-- An execution that goes on from the factors `xs` up to the next one gains at most the weight of
that factor. -/
theorem Advanced.of_closes {xs : List ℝ} {w : Exact} (bounded : Bounded resume entry s most)
    (closes : (tally bounded xs).Closes t) (stands : Stands resume entry s (xs.length + 1) t)
    (gain : w = t.likelihood - .real xs.sum) : Advanced resume entry s (xs.length + 1) ⟨t, w⟩ := by
  cases ending : t.ending with
  | done v =>
    obtain ⟨_, _, _, ⟨ys, tallies⟩, _⟩ := closes.leads ending
    obtain ⟨prior, totals⟩ := tallies.totals
    have count : t.factors = (xs ++ ys).length := congrArg Totals.factors totals
    have below := stands.done ending
    have nothing : ys = [] := by
      rw [count, List.length_append] at below
      exact List.length_eq_zero_iff.mp (by omega)
    refine .done (by rw [Trace.done, ending]) below ?_
    rw [gain, likelihood_eq totals, nothing, List.append_nil, Exact.real_sub, sub_self, Exact.real_zero]
  | suspended k =>
    obtain ⟨ys, tallies⟩ := closes.holds ending
    obtain ⟨prior, totals⟩ := tallies.totals
    have count : t.factors = (xs ++ ys).length := congrArg Totals.factors totals
    have reached := stands.suspended ending
    have one : ys.length = 1 := by
      rw [count, List.length_append] at reached
      omega
    obtain ⟨x, rfl⟩ := List.length_eq_one_iff.mp one
    refine .suspended ending reached List.length_append tallies.reaches ?_
    rw [gain, likelihood_eq totals, List.sum_append, List.sum_singleton, Exact.real_sub,
      add_sub_cancel_left]

theorem advance_dead_or_stands (bounded : Bounded resume entry s most) (waits : Waits resume entry s n p.trace)
    (weightless : p.weight = 0) (yields : Yields (p.advance resume fuel) q) :
    Advanced resume entry s (n + 1) q ∧ (q.weight = .negInf ∨ Stands resume entry s (n + 1) q.trace) := by
  have alive : p.alive = true := by
    rw [Particle.alive, weightless]
    rfl
  unfold Particle.advance at yields
  split at yields
  next finished =>
    obtain rfl := yields.pure.symm
    have complete : p.trace.done = true := by simpa [Particle.finished, alive] using finished
    exact ⟨.done complete (Nat.lt_succ_of_le waits.within) weightless, .inr (waits.stands_of_done complete)⟩
  next unfinished =>
    obtain ⟨extended, ran, yields⟩ := yields.bind
    cases extended with
    | none =>
      obtain rfl := yields.pure
      exact ⟨.dead rfl, .inl rfl⟩
    | some t =>
      obtain rfl := yields.pure
      have made := waits.made.extend ran
      rcases extend_makes ran with ⟨v, ending, rfl⟩ | ⟨k, step, out, ending, goes, makes, rfl⟩
      · have complete : p.trace.done = true := by rw [Trace.done, ending]
        simp [Particle.finished, complete] at unfinished
      obtain ⟨xs, absorbed, before, tallies⟩ := waits.tallies bounded ending
      have leads : (tally bounded xs).Leads p.trace.choices.reverse.reverse p.trace.totals step := by
        rw [List.reverse_reverse]
        exact ⟨k, _, _, ⟨[], by rwa [List.append_nil]⟩, goes⟩
      have closes : (tally bounded xs).Closes out.trace := by
        apply Invariant.closes_of_makes makes leads
        rintro c ⟨_, none_there, _⟩
        cases none_there
      rw [waits.suspended ending] at makes
      have stands : Stands resume entry s (n + 1) out.trace := by
        apply Stands.of_makes makes made (Nat.succ_pos n)
        · exact Nat.lt_succ_self n
        · exact fun c member => Nat.lt_succ_of_le (waits.choices c (List.mem_reverse.mp member))
      subst absorbed
      refine ⟨.of_closes bounded closes stands ?_, .inr stands⟩
      rw [weightless, before, zero_add]

/-- A move under the limit stays below it or at it. -/
theorem Stands.move {accepted : Bool} (stands : Stands resume entry s limit t) (positive : 0 < limit)
    (yields : Yields (Kernel.move resume fuel t (some limit)) (t', accepted)) :
    Stands resume entry s limit t' := by
  rcases move_cases yields with ⟨rfl, _⟩ | ⟨_, r, _, regenerated, _⟩
  · exact stands
  have made := stands.made.regenerate trivial regenerated
  obtain ⟨before, c, after, v, lp, step, out, reused, fresh, parts, _, _, _, _, makes, rfl⟩ :=
    regenerate_makes regenerated
  have inside (b : Choice κ D Exact) (member : b ∈ before ++ [c]) : b.factors < limit := by
    apply stands.choices b
    rw [parts, List.append_cons]
    exact List.mem_append_left after member
  apply Stands.of_makes makes made positive
  · exact inside c (by simp)
  · intro b member
    rcases List.mem_cons.mp member with rfl | member
    · exact inside c (by simp)
    · exact inside b (List.mem_append_left _ (List.mem_reverse.mp member))

theorem Stands.moveTrace {moves : Nat} (stands : Stands resume entry s limit t) (positive : 0 < limit)
    (yields : Yields (Filter.moveTrace resume fuel limit moves t) t') : Stands resume entry s limit t' := by
  induction moves generalizing t with
  | zero =>
    rw [yields.pure]
    exact stands
  | succ moves ih =>
    obtain ⟨moved, ran, yields⟩ := Yields.bind yields
    exact ih (stands.move positive ran) yields

/-- A particle after resampling or rejuvenation at a limit. -/
structure AtLimit (resume : Resume (EStateM Failure σ) κ D Exact) (entry : κ) (s : Store) (limit : Nat)
    (p : Particle κ D Exact) : Prop where
  stands : Stands resume entry s limit p.trace
  weight : p.weight = 0

omit [SoundHost σ D Exact] in
theorem resample_selects {ps qs : List (Particle κ D Exact)}
    (selective : Selective σ c.resampling) (alive : ∃ p ∈ ps, p.weight ≠ .negInf)
    (yields : Yields (resample c ps : EStateM Failure σ _) qs) :
    ∀ q ∈ qs, ∃ p ∈ ps, q = ⟨p.trace, 0⟩ ∧ p.weight ≠ .negInf := by
  obtain ⟨indices, selected, copies⟩ := resample_yields yields
  intro q member
  obtain ⟨i, chosen, p, inside, rfl⟩ := copies q member
  have weighed : (ps.map (·.weight))[i]? = some p.weight := by rw [List.getElem?_map, inside]; rfl
  obtain ⟨heavy, present, some_weight⟩ := alive
  refine ⟨p, List.mem_of_getElem? inside, by rw [Exact.zero_eq], fun weightless => ?_⟩
  apply selective _ _ _ selected ⟨_, List.mem_map_of_mem present, some_weight⟩ i chosen
  rw [weighed, weightless]

/-- What an advance leaves of a population. -/
def Spread (resume : Resume (EStateM Failure σ) κ D Exact) (entry : κ) (s : Store) (limit : Nat)
    (ps : List (Particle κ D Exact)) : Prop :=
  ∀ p ∈ ps, Advanced resume entry s limit p ∧
    (p.weight = .negInf ∨ Stands resume entry s limit p.trace)

theorem spread_of_waits (bounded : Bounded resume entry s most) {ps qs : List (Particle κ D Exact)}
    (waits : ∀ p ∈ ps, Waits resume entry s n p.trace ∧ p.weight = 0)
    (yields : Yields (ps.mapM (Particle.advance resume fuel)) qs) :
    Spread resume entry s (n + 1) qs := by
  intro q member
  obtain ⟨p, present, advanced⟩ := yields.mapM_mem q member
  obtain ⟨placed, weightless⟩ := waits p present
  exact advance_dead_or_stands bounded placed weightless advanced

omit [SoundHost σ D Exact] in
theorem Spread.resample {ps qs : List (Particle κ D Exact)} (spread : Spread resume entry s limit ps)
    (selective : Selective σ c.resampling) (alive : ∃ p ∈ ps, p.weight ≠ .negInf)
    (yields : Yields (Filter.resample c ps : EStateM Failure σ _) qs) :
    ∀ q ∈ qs, AtLimit resume entry s limit q := by
  intro q member
  obtain ⟨p, present, rfl, heavy⟩ := resample_selects selective alive yields q member
  exact ⟨(spread p present).2.resolve_left heavy, rfl⟩

theorem AtLimit.rejuvenate (stands : AtLimit resume entry s limit p) (positive : 0 < limit)
    (yields : Yields (Filter.rejuvenate resume fuel c limit p) q) : AtLimit resume entry s limit q := by
  obtain ⟨moved, ran, yields⟩ := Yields.bind yields
  obtain rfl := yields.pure
  exact ⟨stands.stands.moveTrace positive ran, stands.weight⟩

theorem weight_unfinished (unfinished : p.finished = false) : p.trace.done = false ∧ p.weight ≠ .negInf := by
  have both : p.trace.done = false ∧ p.alive = true := by simpa [Particle.finished] using unfinished
  refine ⟨both.1, fun weightless => ?_⟩
  rw [Particle.alive, weightless] at both
  cases both.2

omit [SoundHost σ D Exact] in
theorem Advanced.unfinished (bounded : Bounded resume entry s most)
    (advanced : Advanced resume entry s limit p) (unfinished : p.finished = false) :
    p.trace.factors = limit ∧ limit ≤ most := by
  obtain ⟨running, heavy⟩ := weight_unfinished unfinished
  cases advanced with
  | dead weight => exact absurd weight heavy
  | done finished before weight =>
    rw [finished] at running
    cases running
  | @suspended k xs x ending factors count reaches weight =>
    have few := bounded.few reaches (List.forall_mem_map.mpr fun x _ => real_tolerable x)
    rw [List.length_map, count] at few
    exact ⟨factors, few⟩

theorem foldl_max_eq {ns : List Nat} {n : Nat} (nonempty : ns ≠ []) (all : ∀ m ∈ ns, m = n) :
    ns.foldl max 0 = n := by
  have same : ∀ k, (List.replicate k n).foldl max n = n := by
    intro k
    induction k with
    | zero => rfl
    | succ k ih => rwa [List.replicate_succ, List.foldl_cons, max_self]
  cases ns with
  | nil => exact absurd rfl nonempty
  | cons m ns =>
    obtain rfl := all m List.mem_cons_self
    rw [List.eq_replicate_of_mem fun k member => all k (List.mem_cons_of_mem m member), List.foldl_cons,
      Nat.zero_max]
    exact same _

omit [SoundHost σ D Exact] in
theorem Spread.frontline_eq (bounded : Bounded resume entry s most) {ps : List (Particle κ D Exact)}
    (spread : Spread resume entry s limit ps) (unfinished : ps.all Particle.finished = false) :
    frontline ps = limit ∧ limit ≤ most ∧ ∃ p ∈ ps, p.weight ≠ .negInf := by
  obtain ⟨p, present, running⟩ := List.all_eq_false.mp unfinished
  have running : p.finished = false := by simpa using running
  have waiting := (spread p present).1.unfinished bounded running
  refine ⟨?_, waiting.2, p, present, (weight_unfinished running).2⟩
  apply foldl_max_eq
  · have chosen : p ∈ ps.filter fun p => !p.finished := List.mem_filter.mpr ⟨present, by simp [running]⟩
    exact List.ne_nil_of_mem (List.mem_map_of_mem chosen)
  · intro n member
    obtain ⟨q, chosen, rfl⟩ := List.mem_map.mp member
    obtain ⟨inside, unfinished⟩ := List.mem_filter.mp chosen
    exact ((spread q inside).1.unfinished bounded (by simpa using unfinished)).1

/-- What a filter does next with its population: advance it, weigh it, or let it move within the
executions taken up to a limit. -/
inductive Phase where
  | due
  | advanced
  | resampled (limit : Nat)

/-- The populations that a filter can have in its rounds. -/
inductive Filters (resume : Resume (EStateM Failure σ) κ D Exact) (steps : Nat) (c : Config)
    (population : List (Particle κ D Exact)) : Phase → Nat → List (Particle κ D Exact) → Prop where
  | start : Filters resume steps c population .due 0 population
  | advance {r ps qs} (before : Filters resume steps c population .due r ps)
      (yields : Yields (ps.mapM (Particle.advance resume steps)) qs) :
      Filters resume steps c population .advanced (r + 1) qs
  | resample {r ps qs} (before : Filters resume steps c population .advanced r ps)
      (unfinished : ps.all Particle.finished = false)
      (yields : Yields (resample c ps : EStateM Failure σ _) qs) :
      Filters resume steps c population (.resampled (frontline ps)) r qs
  | rejuvenate {limit r ps qs} (before : Filters resume steps c population (.resampled limit) r ps)
      (yields : Yields (moveAll resume steps c limit ps) qs) :
      Filters resume steps c population .due r qs

/-- The places of the particles in each phase of a round. -/
def Aligned (resume : Resume (EStateM Failure σ) κ D Exact) (entry : κ) (s : Store) (first most r : Nat)
    (ps : List (Particle κ D Exact)) : Phase → Prop
  | .due => first + r ≤ most ∧ (∀ p ∈ ps, Waits resume entry s (first + r) p.trace ∧ p.weight = 0) ∧
      (0 < r → ∀ p ∈ ps, AtLimit resume entry s (first + r) p)
  | .advanced => 0 < r ∧ first + r ≤ most + 1 ∧ Spread resume entry s (first + r) ps
  | .resampled limit => 0 < r ∧ first + r ≤ most ∧ limit = first + r ∧
      ∀ p ∈ ps, AtLimit resume entry s limit p

section

variable {first r : Nat} {ps qs : List (Particle κ D Exact)}

theorem Aligned.start (bounded : Bounded resume entry s most) (made : Made True resume entry s t) (count : Nat) :
    Aligned resume entry s t.factors most 0 (List.replicate count ⟨t, 0⟩) .due := by
  refine ⟨?_, ?_, fun positive => absurd positive (lt_irrefl 0)⟩
  · have closes := ((tally bounded []).upholds_made (tally_begins bounded) made).closes
    rw [Nat.add_zero]
    change t.totals.factors ≤ most
    cases ending : t.ending with
    | done v =>
      obtain ⟨_, _, _, ⟨_, tallies⟩, _⟩ := closes.leads ending
      exact tallies.factors_le bounded
    | suspended k =>
      obtain ⟨_, tallies⟩ := closes.holds ending
      exact tallies.factors_le bounded
  · intro p member
    obtain rfl := List.eq_of_mem_replicate member
    exact ⟨.of_made bounded made, rfl⟩

theorem Aligned.advance (bounded : Bounded resume entry s most)
    (aligned : Aligned resume entry s first most r ps .due)
    (yields : Yields (ps.mapM (Particle.advance resume fuel)) qs) :
    Aligned resume entry s first most (r + 1) qs .advanced := by
  obtain ⟨few, waits, _⟩ := aligned
  exact ⟨Nat.succ_pos r, by omega, spread_of_waits bounded waits yields⟩

omit [SoundHost σ D Exact] in
theorem Aligned.resample (bounded : Bounded resume entry s most) (selective : Selective σ c.resampling)
    (aligned : Aligned resume entry s first most r ps .advanced)
    (unfinished : ps.all Particle.finished = false)
    (yields : Yields (Filter.resample c ps : EStateM Failure σ _) qs) :
    Aligned resume entry s first most r qs (.resampled (frontline ps)) := by
  obtain ⟨positive, _, spread⟩ := aligned
  obtain ⟨reached, few, alive⟩ := spread.frontline_eq bounded unfinished
  refine ⟨positive, few, reached, ?_⟩
  rw [reached]
  exact spread.resample selective alive yields

theorem Aligned.rejuvenate (aligned : Aligned resume entry s first most r ps (.resampled limit))
    (yields : Yields (moveAll resume fuel c limit ps) qs) :
    Aligned resume entry s first most r qs .due := by
  obtain ⟨positive, few, rfl, stand⟩ := aligned
  have stands : ∀ q ∈ qs, AtLimit resume entry s (first + r) q := by
    intro q member
    unfold moveAll at yields
    split at yields
    next =>
      obtain rfl := yields.pure
      exact stand q member
    next =>
      obtain ⟨p, present, moved⟩ := yields.mapM_mem q member
      exact (stand p present).rejuvenate (by omega) moved
  exact ⟨few, fun q member => ⟨(stands q member).stands.waits, (stands q member).weight⟩, fun _ => stands⟩

end

/-- Every phase finds the particles where it needs them and leaves them in their places. -/
theorem Filters.aligned (bounded : Bounded resume entry s most) (selective : Selective σ c.resampling)
    (made : Made True resume entry s t) {count r : Nat} {phase : Phase} {ps : List (Particle κ D Exact)}
    (filters : Filters resume fuel c (List.replicate count ⟨t, 0⟩) phase r ps) :
    Aligned resume entry s t.factors most r ps phase := by
  induction filters with
  | start => exact .start bounded made count
  | advance before yields ih => exact ih.advance bounded yields
  | resample before unfinished yields ih => exact ih.resample bounded selective unfinished yields
  | rejuvenate before yields ih => exact ih.rejuvenate yields

section

variable {population : List (Particle κ D Exact)} {steps fuel' r : Nat} {mass : Exact}
  {report : Report Exact} {out : Outcome κ D Exact} {ps : List (Particle κ D Exact)}

/-- What the loop returns was advanced and found finished. -/
theorem Filters.outcome (filters : Filters resume steps c population .due r ps)
    (yields : Yields (rounds resume steps c fuel ps mass report) out) :
    ∃ r' qs, Filters resume steps c population .advanced r' qs ∧ qs.all Particle.finished = true ∧
      out.survivors = qs.filter Particle.alive := by
  induction fuel generalizing r ps mass report with
  | zero => exact yields.not_fail
  | succ fuel ih =>
    obtain ⟨qs, _, advanced, _, goes⟩ := rounds_cases yields
    have filters := filters.advance advanced
    obtain ⟨finished, rfl⟩ | ⟨running, drawn, moved, resampled, rejuvenated, yields⟩ := goes
    · exact ⟨_, qs, filters, finished, rfl⟩
    · exact ih ((filters.resample running resampled).rejuvenate rejuvenated) yields

/-- Fuel for more rounds than the program has factors left changes nothing. -/
theorem Filters.enough (bounded : Bounded resume entry s most) (selective : Selective σ c.resampling)
    (made : Made True resume entry s t) {count : Nat}
    (filters : Filters resume steps c (List.replicate count ⟨t, 0⟩) .due r ps)
    (enough : most < t.factors + r + fuel) (enough' : most < t.factors + r + fuel') :
    rounds resume steps c fuel ps mass report = rounds resume steps c fuel' ps mass report := by
  have few := (filters.aligned bounded selective made).1
  induction fuel generalizing fuel' r ps mass report with
  | zero => omega
  | succ fuel ih =>
    obtain ⟨fuel', rfl⟩ := Nat.exists_eq_succ_of_ne_zero (show fuel' ≠ 0 by omega)
    rw [rounds_succ, rounds_succ]
    refine bind_congr_yields fun qs advanced => ?_
    have filters := filters.advance advanced
    split
    next => rfl
    next unfinished =>
      refine bind_congr_yields fun more _ => ?_
      refine bind_congr_yields fun drawn resampled => ?_
      refine bind_congr_yields fun moved rejuvenated => ?_
      refine bind_congr_yields fun _ _ => ?_
      have running := (Bool.not_eq_true _).mp unfinished
      have next := (filters.resample running resampled).rejuvenate rejuvenated
      exact ih next (by omega) (by omega) (next.aligned bounded selective made).1

end

end

section

/-- One coin, with two factors after heads and none after tails. -/
def headsWeighed : PlainProgram Nat Unit Exact where
  entry := 0
  next
    | 0, s, _ => .ok (.sample s 1 .root ())
    | 1, s, .bool true => .ok (.factor s 2 .root (.real 1))
    | 2, s, _ => .ok (.factor s 3 .root (.real 2))
    | _, s, v => .ok (.exit s v)

section

variable {σ : Type} [Host (EStateM Failure σ) Unit Exact] [SoundHost σ Unit Exact]

theorem headsWeighed_steps {k : Nat} {s : Store} {u : Value} {step : Step Nat Unit Exact}
    (goes : Yields (headsWeighed.resume k s u : EStateM Failure σ _) step) :
    (k = 0 ∧ step = .sample s 1 .root ()) ∨ (k = 1 ∧ step = .factor s 2 .root (.real 1)) ∨
      (k = 2 ∧ step = .factor s 3 .root (.real 2)) ∨ step = .exit s u := by
  have known := Yields.lift goes
  unfold headsWeighed at known
  dsimp only at known
  split at known
  all_goals
    cases known
    simp

theorem headsWeighed_absorbs {chosen : Unit → Value → Prop} {cs : List (Address × Unit × Value)}
    {xs : List Exact} {k : Nat} {s : Store} {u : Value}
    (reaches : Reaches (headsWeighed.resume : Resume (EStateM Failure σ) Nat Unit Exact) chosen 0 .empty
      cs xs k s u) :
    (k ≤ 1 ∧ xs.length = 0) ∨ (k = 2 ∧ xs.length = 1) ∨ (k = 3 ∧ xs.length = 2) := by
  induction reaches with
  | start => exact .inl ⟨Nat.zero_le 1, rfl⟩
  | choose before goes choice ih =>
    rcases headsWeighed_steps goes with ⟨rfl, same⟩ | ⟨rfl, same⟩ | ⟨rfl, same⟩ | same
    · cases same
      simpa using ih
    all_goals cases same
  | absorb before goes ih =>
    rcases headsWeighed_steps goes with ⟨rfl, same⟩ | ⟨rfl, same⟩ | ⟨rfl, same⟩ | same
    · cases same
    · cases same
      simpa using ih
    · cases same
      simpa using ih
    · cases same

/-- On any host whose coin is fair. -/
theorem headsWeighed_bounded [LawfulHost σ Unit Exact] (fair : LawfulHost.densities σ = fairCoin) :
    Bounded (headsWeighed.resume : Resume (EStateM Failure σ) Nat Unit Exact) 0 .empty 2 where
  few reaches _ := by
    rcases headsWeighed_absorbs reaches with ⟨_, none⟩ | ⟨_, one⟩ | ⟨_, two⟩
    all_goals omega
  dense _ _ weighs := by
    obtain ⟨_, _, asked⟩ := weighs
    have known := (logDensity_eq_ok.mp asked).1
    rw [fair] at known
    exact .inl ⟨_, (Except.ok.inj known).symm⟩
  finite {cs xs s' k a x} arrives := by
    obtain ⟨_, _, _, _, goes⟩ := arrives
    rcases headsWeighed_steps goes with ⟨rfl, same⟩ | ⟨rfl, same⟩ | ⟨rfl, same⟩ | same
    all_goals cases same
    · exact nofun
    · exact nofun

end

noncomputable abbrev headsResume : Resume (EStateM Failure (Careful fairCoin)) Nat Unit Exact := headsWeighed.resume

theorem heads_listed : Listed fairCoin () (.bool true) :=
  ⟨_, _, rfl, by simp, rfl, rfl⟩

/-- The tape after heads, and what is recorded of it at the first factor. -/
noncomputable def headsTape : Recording Nat Unit Exact :=
  Recording.record ⟨[], Score.zero, Score.zero, 0, [], Score.zero + .real (Real.log 2⁻¹)⟩ .empty 1
    .root () (.bool true) (.real (Real.log 2⁻¹))

noncomputable def headsRecorded : Recorded Nat Unit Exact :=
  (headsTape.absorb (.real 1)).finish .empty (.suspended 2)

theorem heads_extend {fuel : Nat} (rest : List (Draw Exact)) :
    Kernel.extend headsResume (fuel + 2) (.start 0 .empty) (some 1) ⟨.value (.bool true) :: rest⟩ =
      .ok (some headsRecorded.trace) ⟨rest⟩ := by
  refine bind_eq_ok.mpr ⟨.sample .empty 1 .root (), _, rfl, ?_⟩
  refine bind_eq_ok.mpr ⟨some headsRecorded, ⟨rest⟩, ?_, rfl⟩
  refine bind_eq_ok.mpr ⟨.deliver headsTape (.bool true), ⟨rest⟩, ?_, ?_⟩
  on_goal 2 => exact bind_eq_ok.mpr ⟨.factor .empty 2 .root (.real 1), _, rfl, rfl⟩
  refine bind_eq_ok.mpr ⟨none, _, rfl, ?_⟩
  exact bind_eq_ok.mpr ⟨.bool true, ⟨rest⟩, Careful.draw_eq_ok.mpr ⟨rfl, heads_listed⟩, rfl⟩

end

end ProbCore.Filter
