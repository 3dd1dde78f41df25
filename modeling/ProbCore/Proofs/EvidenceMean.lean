import ProbCore.Proofs.Prospects
import ProbCore.Proofs.SelectionMeans
import ProbCore.Strategy.Filter

/-! The evidence that a particle filter estimates is right on average. What a particle is worth is
its weight times the mass that is still ahead of it. No step of a round changes on average what the
population is worth together, and in the end this is the estimate. -/

namespace ProbCore

open Expected Kernel
open scoped ENNReal

variable {κ D : Type} {laws : Densities D Exact} {P : PlainProgram κ D Exact} {s : Store}

namespace Filter

/-- What a particle that was advanced is worth: its weight times what is ahead of it. -/
def Weighed (laws : Densities D Exact) (P : PlainProgram κ D Exact) (s : Store) (h : Nat) (p : Particle κ D Exact)
    (u : ℝ≥0∞) : Prop :=
  p.weight = .negInf ∧ u = 0 ∨
    ∃ x v, p.weight = .real x ∧ Prospect laws P s h p.trace v ∧ u = chance (.real x) * v

/-- Advancing a particle does not change on average what it is worth. -/
theorem advance_averages (addressed : ∀ s' k a d, Comes laws P s (.sample s' k a d) → a.isHashable = true)
    {h steps : Nat} (enough : h + 1 ≤ steps) {p : Particle κ D Exact} {u : ℝ≥0∞} (weightless : p.weight = 0)
    (prospect : Prospect laws P s (h + 1) p.trace u) :
    Averages (p.advance P.resume steps : Expected laws _) (Weighed laws P s h) u := by
  have alive : p.alive = true := by
    rw [Particle.alive, weightless]
    rfl
  cases prospect with
  | @done v key likelihood ending keyed =>
    have finished : p.finished = true := by rw [Particle.finished, Trace.done, ending]; rfl
    rw [Particle.advance, if_pos finished]
    exact .pure (.inr ⟨0, 1, weightless, .done likelihood ending keyed, by rw [chance_zero, one_mul]⟩)
  | @suspended k score step tree likelihood ending goes ahead low =>
    have running : p.finished = false := by simp [Particle.finished, Trace.done, ending, alive]
    obtain ⟨l, known⟩ := likelihood
    have resumes : (P.resume k p.trace.store .absent : Expected laws _) = pure step := by
      rw [PlainProgram.resume, goes]
      rfl
    let tape : Recording κ D Exact :=
      ⟨p.trace.choices.reverse, p.trace.score, p.trace.prior, p.trace.factors, [], Score.zero⟩
    have recorded : Averages (drive P.resume (handler (some (tape.factors + 1)) none) steps tape step :
        Expected laws _) (Recorded.Worth laws P s h l) tree.worth :=
      drive_averages addressed ahead (low.trans enough) low known
    have extended : (Kernel.extend P.resume steps p.trace (some (p.trace.factors + 1)) : Expected laws _) =
        drive P.resume (handler (some (tape.factors + 1)) none) steps tape step >>= fun out =>
          pure (out.map (·.trace)) := by
      rw [Kernel.extend, ending]
      simp only [resumes, pure_bind]
      rfl
    rw [Particle.advance, running]
    simp only [Bool.false_eq_true, if_false, extended, bind_assoc, pure_bind]
    refine recorded.bind ?_
    rintro (_ | r) v held
    · exact .pure (.inl ⟨rfl, held⟩)
    · obtain ⟨gain, v, gained, prospect, rfl⟩ := held
      refine .pure (.inr ⟨gain, v, ?_, prospect, rfl⟩)
      change p.weight + (r.trace.likelihood - p.trace.likelihood) = _
      rw [weightless, known, gained, Exact.real_sub, add_sub_cancel_left, zero_add]

theorem Weighed.finite {h : Nat} {p : Particle κ D Exact} {u : ℝ≥0∞} (weighed : Weighed laws P s h p u) :
    p.weight.IsReal ∨ p.weight = .negInf := by
  rcases weighed with ⟨dead, _⟩ | ⟨x, _, real, _⟩
  · exact .inr dead
  · exact .inl ⟨x, real⟩

/-- A particle whose execution is complete is worth its weight. -/
theorem Weighed.finished {h : Nat} {p : Particle κ D Exact} {u : ℝ≥0∞} (weighed : Weighed laws P s h p u)
    (finished : p.finished = true) : u = chance p.weight := by
  rcases weighed with ⟨dead, rfl⟩ | ⟨x, v, real, prospect, rfl⟩
  · rw [dead, chance_negInf]
  · have alive : p.alive = true := by rw [Particle.alive, real]; rfl
    cases prospect with
    | done _ _ _ => rw [mul_one, real]
    | suspended _ ending _ _ _ => simp [Particle.finished, Trace.done, ending, alive] at finished

theorem Weighed.dead {h : Nat} {p : Particle κ D Exact} {u : ℝ≥0∞} (weighed : Weighed laws P s h p u)
    (unlikely : chance p.weight = 0) : p.weight = .negInf ∧ u = 0 := by
  rcases weighed with dead | ⟨x, _, real, _, _⟩
  · exact dead
  · rw [real] at unlikely
    exact absurd unlikely (chance_real_ne_zero x)

theorem Weighed.running {h : Nat} {p : Particle κ D Exact} {u : ℝ≥0∞} (weighed : Weighed laws P s h p u)
    (running : p.finished = false) : 0 < h := by
  rcases weighed with ⟨dead, _⟩ | ⟨x, v, real, prospect, _⟩
  · simp [Particle.finished, Particle.alive, dead, Score.less, Exact.less, Score.impossible] at running
  · cases prospect with
    | done _ ending _ => simp [Particle.finished, Trace.done, ending] at running
    | @suspended _ _ _ tree _ _ _ _ low =>
      cases tree with
      | leaf | factor | choice => exact lt_of_lt_of_le (Nat.succ_pos _) low

/-- A particle of weight one, and what is ahead of it. -/
def Fresh (laws : Densities D Exact) (P : PlainProgram κ D Exact) (s : Store) (h : Nat) (p : Particle κ D Exact)
    (u : ℝ≥0∞) : Prop :=
  p.weight = 0 ∧ Prospect laws P s h p.trace u

/-- A run that can be turned into a marginal. -/
structure Sound (out : Outcome κ D Exact) : Prop where
  nonempty : out.survivors ≠ []
  complete : ∀ p ∈ out.survivors, p.weight.IsReal ∧ ∃ v key, p.trace.value? = some v ∧ v.key = .ok key

/-- What is ahead of the member at an index, on average of its weight. -/
noncomputable def aheadOf (items : List (Particle κ D Exact × ℝ≥0∞)) (i : Nat) : ℝ≥0∞ :=
  (items[i]?.map fun y => y.2 / chance y.1.weight).getD 0

section

variable {h : Nat} {items : List (Particle κ D Exact × ℝ≥0∞)}
  (weighed : ∀ y ∈ items, Weighed laws P s h y.1 y.2)

include weighed

theorem weights_finite : ∀ w ∈ (items.map (·.1)).map (·.weight), w.IsReal ∨ w = .negInf := by
  simp only [List.forall_mem_map]
  exact fun y member => (weighed y member).finite

theorem worthless (massless : Exact.mass ((items.map (·.1)).map (·.weight)) = 0) : (items.map (·.2)).sum = 0 := by
  have total := chance_sum ((items.map (·.1)).map (·.weight))
  rw [massless, ENNReal.ofReal_zero] at total
  refine List.sum_eq_zero (List.forall_mem_map.mpr fun y member => ((weighed y member).dead ?_).2)
  exact List.sum_eq_zero_iff.mp total _
    (List.mem_map_of_mem (List.mem_map_of_mem (List.mem_map_of_mem member)))

theorem worth_of_finished (finished : ∀ p ∈ items.map (·.1), p.finished = true) :
    (items.map (·.2)).sum = ENNReal.ofReal (Exact.mass ((items.map (·.1)).map (·.weight))) := by
  rw [← chance_sum, List.map_map, List.map_map]
  refine congrArg List.sum (List.map_congr_left fun y member => ?_)
  exact (weighed y member).finished (finished _ (List.mem_map_of_mem member))

theorem weighted_aheadOf :
    weighted ((items.map (·.1)).map (·.weight)) (aheadOf items) =
      (items.map (·.2)).sum / ENNReal.ofReal (Exact.mass ((items.map (·.1)).map (·.weight))) := by
  unfold weighted
  generalize ENNReal.ofReal (Exact.mass ((items.map (·.1)).map (·.weight))) = total
  have each : ∀ p ∈ items.zipIdx,
      chance p.1.1.weight / total * aheadOf items p.2 = p.1.2 * total⁻¹ := by
    intro p member
    have there := List.mem_zipIdx_iff_getElem?.mp member
    rw [aheadOf, there, Option.map_some, Option.getD_some]
    rcases weighed p.1 (List.mem_of_getElem? there) with ⟨dead, worthless⟩ | ⟨x, v, known, _, _⟩
    · rw [dead, chance_negInf, worthless, ENNReal.zero_div, zero_mul, zero_mul]
    · have cancelled : chance (.real x) * (chance (.real x))⁻¹ = 1 :=
        ENNReal.mul_inv_cancel (chance_real_ne_zero x) (chance_ne_top _)
      calc chance p.1.1.weight / total * (p.1.2 / chance p.1.1.weight)
        _ = p.1.2 * total⁻¹ * (chance (.real x) * (chance (.real x))⁻¹) := by
          rw [known, div_eq_mul_inv, div_eq_mul_inv]
          ring
        _ = p.1.2 * total⁻¹ := by rw [cancelled, mul_one]
  rw [List.map_map, List.zipIdx_map, List.map_map,
    ← zipIdx_map_firsts (fun y : Particle κ D Exact × ℝ≥0∞ => y.2) items, div_eq_mul_inv, ← List.sum_map_mul_right]
  exact congrArg List.sum (List.map_congr_left each)

/-- Copies of members that have weight, all of weight one. -/
theorem copies_together {indices : List Nat}
    (heavy : ∀ i ∈ indices, ∃ w, ((items.map (·.1)).map (·.weight))[i]? = some w ∧ w.IsReal) :
    Together (Fresh laws P s h) indices.length
      (indices.filterMap fun i => (items.map (·.1))[i]?.map fun p => ⟨p.trace, Score.zero⟩)
      (indices.map (aheadOf items)).sum := by
  induction indices with
  | nil => exact .nil
  | cons i indices ih =>
    obtain ⟨⟨w, found, real⟩, others⟩ := List.forall_mem_cons.mp heavy
    rw [List.getElem?_map, List.getElem?_map] at found
    cases there : items[i]? with
    | none => simp [there] at found
    | some y =>
      simp only [there, Option.map_some, Option.some.injEq] at found
      rcases weighed y (List.mem_of_getElem? there) with ⟨dead, _⟩ | ⟨x, v, known, prospect, worth⟩
      · rw [← found, dead] at real
        obtain ⟨_, impossible⟩ := real
        cases impossible
      · have ahead : aheadOf items i = v := by
          rw [aheadOf, there, Option.map_some, Option.getD_some, worth, known, mul_comm,
            ENNReal.mul_div_cancel_right (chance_real_ne_zero x) (chance_ne_top _)]
        rw [List.filterMap_cons_some (by rw [List.getElem?_map, there]; rfl), List.map_cons, List.sum_cons, ahead]
        exact (ih others).cons ⟨Exact.zero_eq, prospect⟩

/-- Resampling does not change on average what a population is worth, but for the total weight. -/
theorem resample_averages (c : Config)
    (positive : 0 < Exact.mass ((items.map (·.1)).map (·.weight))) :
    Averages (resample c (items.map (·.1)) : Expected laws _) (Together (Fresh laws P s h) items.length)
      (items.length * ((items.map (·.2)).sum / ENNReal.ofReal (Exact.mass ((items.map (·.1)).map (·.weight))))) := by
  have some_there : items.length ≠ 0 := by
    intro none_there
    rw [List.length_eq_zero_iff.mp none_there] at positive
    exact lt_irrefl _ positive
  have selected : Averages (Particle.select c.resampling _ _ : Expected laws _) _ _ :=
    .select c.resampling (weights_finite weighed) positive some_there (aheadOf items)
  rw [weighted_aheadOf weighed] at selected
  unfold resample
  rw [List.length_map]
  refine selected.bind ?_
  rintro indices _ ⟨count, heavy, rfl⟩
  rw [← count]
  exact .pure (copies_together weighed heavy)

theorem sound_of_finished {mass : Exact} {report : Report Exact}
    (finished : ∀ p ∈ items.map (·.1), p.finished = true)
    (massive : 0 < Exact.mass ((items.map (·.1)).map (·.weight))) :
    Sound ⟨mass, (items.map (·.1)).filter Particle.alive, report⟩ := by
  constructor
  case nonempty =>
    intro empty
    change (items.map (·.1)).filter Particle.alive = [] at empty
    have unlikely : ∀ w ∈ (items.map (·.1)).map (·.weight), chance w = 0 := by
      simp only [List.forall_mem_map]
      intro y member
      rcases weighed y member with ⟨dead, _⟩ | ⟨x, _, real, _, _⟩
      · rw [dead, chance_negInf]
      · have alive : y.1.alive = true := by rw [Particle.alive, real]; rfl
        have survives := List.mem_filter.mpr ⟨List.mem_map_of_mem (f := Prod.fst) member, alive⟩
        rw [empty] at survives
        cases survives
    have total := chance_sum ((items.map (·.1)).map (·.weight))
    rw [List.sum_eq_zero (List.forall_mem_map.mpr unlikely)] at total
    exact (ENNReal.ofReal_pos.mpr massive).ne total
  case complete =>
    intro p member
    obtain ⟨present, alive⟩ := List.mem_filter.mp member
    have ended := finished p present
    obtain ⟨y, there, rfl⟩ := List.mem_map.mp present
    rcases weighed y there with ⟨dead, _⟩ | ⟨x, v, real, prospect, _⟩
    · rw [Particle.alive, dead] at alive
      cases alive
    · cases prospect with
      | @done v key _ ending keyed => exact ⟨⟨x, real⟩, v, key, by rw [Trace.value?, ending], keyed⟩
      | suspended _ ending _ _ _ => simp [Particle.finished, Trace.done, ending, alive] at ended

end

theorem logMeanWeight_degenerate {ps : List (Particle κ D Exact)}
    (finite : ∀ w ∈ ps.map (·.weight), w.IsReal ∨ w = .negInf) (massless : Exact.mass (ps.map (·.weight)) = 0) :
    Particle.logMeanWeight ps = .error .degenerate := by
  unfold Particle.logMeanWeight
  rw [Exact.logSumExp_ofMass finite, massless, Exact.ofMass_zero]
  rfl

theorem logMeanWeight_eq {ps : List (Particle κ D Exact)}
    (finite : ∀ w ∈ ps.map (·.weight), w.IsReal ∨ w = .negInf) (massive : 0 < Exact.mass (ps.map (·.weight)))
    (some_there : ps.length ≠ 0) :
    Particle.logMeanWeight ps = .ok (.real (Real.log (Exact.mass (ps.map (·.weight))) - Real.log ps.length)) := by
  have likely (x : ℝ) : Score.isImpossible (Exact.real x) = false := rfl
  unfold Particle.logMeanWeight
  rw [Exact.logSumExp_ofMass finite, Exact.ofMass_pos massive, Exact.logNat_eq some_there]
  simp only [likely, Bool.false_eq_true, if_false, Exact.real_sub]

theorem chance_mean (l : ℝ) {mass : ℝ} (massive : 0 < mass) {n : Nat} (some_there : n ≠ 0) :
    chance (.real (l + (Real.log mass - Real.log n))) = chance (.real l) * (ENNReal.ofReal mass / n) := by
  have long : (0 : ℝ) < n := Nat.cast_pos.mpr (Nat.pos_of_ne_zero some_there)
  rw [chance_add, chance_real (Real.log mass - _), Real.exp_sub, Real.exp_log massive, Real.exp_log long,
    ENNReal.ofReal_div_of_pos long, ENNReal.ofReal_natCast]

/-- The mean weight makes up for the shares by which members are resampled. -/
theorem resampled_worth (scale before worth : ℝ≥0∞) {n mass : ℝ≥0∞} (crowd : n * n⁻¹ = 1) (load : mass * mass⁻¹ = 1) :
    scale * (before * (mass / n)) / n * (n * (worth / mass)) = scale * before / n * worth := by
  calc scale * (before * (mass / n)) / n * (n * (worth / mass))
    _ = scale * before / n * worth * (mass * mass⁻¹) * (n * n⁻¹) := by
      simp only [div_eq_mul_inv]
      ring
    _ = scale * before / n * worth := by rw [load, crowd, mul_one, mul_one]

/-- What a population is worth together is on average the estimated evidence, from where it stands
on. -/
theorem rounds_mean (addressed : ∀ s' k a d, Comes laws P s (.sample s' k a d) → a.isHashable = true)
    {c : Config} (still : c.moves = 0) {steps : Nat} {f : Except Failure (Outcome κ D Exact) → ℝ≥0∞}
    {scale shift : ℝ≥0∞} (success : ∀ out, Sound out → f (.ok out) = scale * chance out.logMass + shift)
    (failure : f (.error .degenerate) = shift) {fuel h : Nat} (enough : h < fuel) (enough' : h < steps)
    {items : List (Particle κ D Exact × ℝ≥0∞)} (some_there : items.length ≠ 0)
    (fresh : ∀ z ∈ items, Fresh laws P s h z.1 z.2) (l : ℝ) (report : Report Exact) :
    (rounds P.resume steps c fuel (items.map (·.1)) (.real l) report : Expected laws _).mean f =
      scale * (chance (.real l) * ((items.map (·.2)).sum / items.length)) + shift := by
  -- A round takes every particle to its next factor, so that the height that is left shrinks with the fuel.
  induction fuel generalizing h items l report with
  | zero => omega
  | succ fuel ih =>
    have advanced : Averages ((items.map (·.1)).mapM (Particle.advance P.resume steps) : Expected laws _)
        (Together (Weighed laws P s (h - 1)) items.length) (items.map (·.2)).sum := by
      refine .mapM fun z member => ?_
      obtain ⟨weightless, prospect⟩ := fresh z member
      exact advance_averages addressed (by omega) weightless (prospect.mono (by omega))
    rw [rounds_succ, mean_bind]
    have reshaped : scale * (chance (.real l) * ((items.map (·.2)).sum / items.length)) =
        scale * chance (.real l) / items.length * (items.map (·.2)).sum := by
      rw [div_eq_mul_inv, div_eq_mul_inv]
      ring
    rw [reshaped]
    refine advanced.eval _ shift ?_
    rintro _ _ ⟨made, rfl, count, weighed, rfl⟩
    rw [after_ok, ← count]
    have some_made : (made.map (·.1)).length ≠ 0 := by rwa [List.length_map, count]
    rcases (Exact.mass_nonneg ((made.map (·.1)).map (·.weight))).eq_or_lt with massless | massive
    · rw [logMeanWeight_degenerate (weights_finite weighed) massless.symm, worthless weighed massless.symm, mul_zero,
        zero_add]
      split
      next => exact failure
      next => exact failure
    · rw [logMeanWeight_eq (weights_finite weighed) massive some_made]
      split
      next finished =>
        have ended := List.all_eq_true.mp finished
        change f (.ok ⟨.real l + .real _, (made.map (·.1)).filter Particle.alive, report⟩) = _
        rw [success _ (sound_of_finished weighed ended massive), worth_of_finished weighed ended]
        dsimp only
        rw [Exact.real_add, chance_mean l massive some_made, List.length_map, div_eq_mul_inv, div_eq_mul_inv]
        ring
      next running =>
        obtain ⟨y, there, unfinished⟩ : ∃ y ∈ made, y.1.finished = false := by simpa using running
        have further := (weighed y there).running unfinished
        generalize known : Real.log (Exact.mass ((made.map (·.1)).map (·.weight))) -
          Real.log (made.map (·.1)).length = gained
        have lifted : (Host.lift (.ok (.real gained)) : Expected laws Exact) = pure (.real gained) := rfl
        rw [lifted, pure_bind, mean_bind]
        refine ((resample_averages weighed c massive).eval
          (scale * chance (.real (l + gained)) / made.length) shift ?_).trans ?_
        · rintro _ _ ⟨drawn, rfl, count', fresh', rfl⟩
          have some_drawn : drawn.length ≠ 0 := by rwa [count', count]
          have unnoticed (notice : Notice) : (Host.note notice : Expected laws Unit) = pure () := rfl
          rw [after_ok, moveAll_unmoved still, pure_bind]
          dsimp only
          rw [unnoticed, pure_bind, Exact.real_add, ih (by omega) (by omega) some_drawn fresh', count',
            div_eq_mul_inv, div_eq_mul_inv]
          ring
        · rw [← known, chance_mean l massive some_made, List.length_map]
          have crowd : (made.length : ℝ≥0∞) * (made.length : ℝ≥0∞)⁻¹ = 1 :=
            ENNReal.mul_inv_cancel (Nat.cast_ne_zero.mpr (count ▸ some_there)) (ENNReal.natCast_ne_top _)
          have load := ENNReal.mul_inv_cancel (ENNReal.ofReal_pos.mpr massive).ne' ENNReal.ofReal_ne_top
          rw [resampled_worth _ _ _ crowd load]

/-- The marginal of the executions that survived a run. -/
noncomputable def Outcome.marginal (out : Outcome κ D Exact) : Except Failure (Marginal Value Exact) :=
  Marginal.ofLogWeights (out.survivors.map fun p => p.trace.value?.getD .absent) (out.survivors.map (·.weight))
    (some out.logMass) [] out.report.diagnostics

theorem Sound.normalized {out : Outcome κ D Exact} (sound : Sound out) :
    ∃ M, out.marginal = .ok M ∧ M.normalization = some out.logMass := by
  let found := out.survivors.map fun p => (p.trace.value?.getD .absent, p.weight)
  have values : found.map (·.1) = out.survivors.map fun p => p.trace.value?.getD .absent := List.map_map
  have weights : found.map (·.2) = out.survivors.map (·.weight) := List.map_map
  have some_found : found ≠ [] := by simpa [found] using sound.nonempty
  have reals : ∀ e ∈ found, e.2.IsReal := List.forall_mem_map.mpr fun p member => (sound.complete p member).1
  have keyed : ∀ e ∈ found, ∃ key, e.1.key = .ok key := by
    refine List.forall_mem_map.mpr fun p member => ?_
    obtain ⟨_, v, key, ended, known⟩ := sound.complete p member
    rw [ended]
    exact ⟨key, known⟩
  rw [Outcome.marginal, ← values, ← weights]
  have finite : ∀ e ∈ found, e.2.IsReal ∨ e.2 = .negInf := fun e member => .inl (reals e member)
  have massive : 0 < Exact.mass (found.map (·.2)) :=
    Exact.mass_pos (by simpa using some_found) (List.forall_mem_map.mpr reals)
  obtain ⟨M, made⟩ := Marginal.ofLogWeights_succeeds finite massive keyed
  exact ⟨M, made, (Marginal.ofLogWeights_shares finite massive made).1⟩

/-- The mean of any function of the result that is affine in the estimated evidence. -/
theorem estimate_mean (addressed : ∀ s' k a d, Comes laws P s (.sample s' k a d) → a.isHashable = true)
    {c : Config} (still : c.moves = 0) (some_particles : c.particles ≠ 0)
    {g : Except Failure (Marginal Value Exact) → ℝ≥0∞} {scale shift : ℝ≥0∞}
    (success : ∀ M z, M.normalization = some z → g (.ok M) = scale * chance z + shift)
    (failure : g (.error .degenerate) = shift) {step : Step κ D Exact} {tree : ExecutionTree Exact}
    (begins : P.next P.entry s .absent = .ok step) (ahead : Ahead laws P s 0 step tree) {fuel : Nat}
    (enough : tree.height < fuel) :
    (estimate P.resume fuel c P.entry s : Expected laws _).mean g = scale * tree.worth + shift := by
  let start : Particle κ D Exact := ⟨.start P.entry s, Score.zero⟩
  have unweighted : start.trace.likelihood = .real 0 := by
    change (Score.zero - Score.zero : Exact) = _
    rw [Exact.zero_eq, ← Exact.real_zero, Exact.real_sub, sub_zero]
  have fresh : ∀ z ∈ List.replicate c.particles (start, tree.worth), Fresh laws P s tree.height z.1 z.2 := by
    intro z member
    obtain rfl := List.eq_of_mem_replicate member
    exact ⟨Exact.zero_eq, .suspended ⟨0, unweighted⟩ rfl begins ahead le_rfl⟩
  let finish (out : Outcome κ D Exact) : Expected laws (Marginal Value Exact) := Host.lift out.marginal
  have finished : ∀ out, Sound out → after finish g (.ok out) = scale * chance out.logMass + shift := by
    intro out sound
    obtain ⟨M, made, normalization⟩ := sound.normalized
    have lifted : finish out = pure M := by
      change Host.lift out.marginal = _
      rw [made]
      rfl
    rw [after_ok, lifted]
    exact success M _ normalization
  let report : Report Exact := ⟨0, Score.ofNat (List.replicate c.particles start).length⟩
  have estimated : (estimate P.resume fuel c P.entry s : Expected laws _) =
      rounds P.resume fuel c fuel (List.replicate c.particles start) Score.zero report >>= finish := rfl
  have ran := rounds_mean addressed still finished failure enough enough (by simpa using some_particles) fresh 0 report
  simp only [List.map_replicate, List.sum_replicate, List.length_replicate, nsmul_eq_mul] at ran
  rw [estimated, mean_bind, Exact.zero_eq, ← Exact.real_zero, ran, chance_zero, one_mul, mul_comm (c.particles : ℝ≥0∞),
    ENNReal.mul_div_cancel_right (Nat.cast_ne_zero.mpr some_particles) (ENNReal.natCast_ne_top _)]

/-- The evidence that a result estimates. A degenerate run counts as none. -/
noncomputable def evidence (other : Failure → ℝ≥0∞) : Except Failure (Marginal Value Exact) → ℝ≥0∞
  | .ok M => (M.normalization.map chance).getD 0
  | .error .degenerate => 0
  | .error e => other e

/-- A filter that does not move its particles estimates the evidence without bias, whatever their
number and the way they are resampled: on average over all draws its estimate is the mass of all
executions, which an exhaustive search computes. A run that is not degenerate returns a marginal. -/
theorem evidence_unbiased {σ : Type} [Host (EStateM Failure σ) D Exact] [LawfulHost σ D Exact]
    {step : Step κ D Exact} {tree : ExecutionTree Exact} {c : Config} (begins : P.next P.entry s .absent = .ok step)
    (unfolds : Unfolds (LawfulHost.densities σ) P Score.zero step tree) (temperate : tree.Temperate)
    (normalized : tree.Normalized)
    (addressed : ∀ s' k a d, Comes (LawfulHost.densities σ) P s (.sample s' k a d) → a.isHashable = true)
    (keyed : ∀ e ∈ tree.executions 0, ∃ k, e.1.key = .ok k) (some_particles : c.particles ≠ 0)
    (still : c.moves = 0) :
    ∃ n, ∀ fuel ≥ n, ∀ other,
      let estimated : Expected (LawfulHost.densities σ) (Marginal Value Exact) :=
        estimate P.resume fuel c P.entry s
      let enumerated (t : Traversal) : EStateM Failure σ (Marginal Value Exact) :=
        Enumeration.estimate P.resume fuel ⟨t, none⟩ P.entry s
      estimated.mean (fun _ => 1) = 1 ∧
      estimated.mean (evidence other) = ENNReal.ofReal (Exact.mass ((tree.executions 0).map (·.2))) ∧
      (tree.executions 0 ≠ [] → ∀ t, ∃ N, Returns (enumerated t) N ∧
        estimated.mean (evidence other) = evidence other (.ok N)) := by
  have has : HasTree (P.resume : Resume (EStateM Failure σ) κ D Exact) P.entry s tree :=
    ⟨P, _, step, P.resume_performs, rfl, begins, unfolds⟩
  obtain ⟨n, masses⟩ := estimate_masses has temperate.weighable
  refine ⟨max n (tree.height + 1), fun fuel enough other => ?_⟩
  rw [Exact.zero_eq] at unfolds
  have ahead : Ahead (LawfulHost.densities σ) P s 0 step tree :=
    ⟨.start begins, unfolds, temperate, normalized, keyed⟩
  have low : tree.height < fuel := by omega
  have mean : (estimate P.resume fuel c P.entry s : Expected (LawfulHost.densities σ) _).mean (evidence other) =
      ENNReal.ofReal (Exact.mass ((tree.executions 0).map (·.2))) := by
    have success (M : Marginal Value Exact) (z : Exact) (known : M.normalization = some z) :
        evidence other (.ok M) = 1 * chance z + 0 := by
      rw [evidence, known, one_mul, add_zero]
      rfl
    have total := tree.executions_mass temperate 0
    rw [chance_zero, one_mul, Exact.real_zero] at total
    rw [estimate_mean addressed still some_particles success rfl begins ahead low, one_mul, add_zero, total]
  refine ⟨?_, mean, fun some_found t => ?_⟩
  · have certain (M : Marginal Value Exact) (z : Exact) (_ : M.normalization = some z) : 1 = 0 * chance z + 1 := by
      rw [zero_mul, zero_add]
    rw [estimate_mean addressed still some_particles certain rfl begins ahead low, zero_mul, zero_add]
  · obtain ⟨shares, succeeds⟩ := masses fuel (by omega) t
    obtain ⟨N, returned⟩ := succeeds some_found keyed
    have positive : 0 < Exact.mass ((tree.executions 0).map (·.2)) :=
      Exact.mass_pos (by simpa using some_found)
        (List.forall_mem_map.mpr (ExecutionTree.executions_real temperate.weighable ⟨0, rfl⟩))
    refine ⟨N, returned, ?_⟩
    rw [mean, evidence, (shares N returned.canReturn).1, Option.map_some, Option.getD_some, chance_real,
      Real.exp_log positive]

theorem weighedCoin_addressed {s' : Store} {k : Nat} {a : Address} {d : Unit}
    (comes : Comes fairCoin weighedCoin s (.sample s' k a d)) : a.isHashable = true := by
  obtain ⟨_, _, _, goes⟩ := comes.next
  unfold weighedCoin at goes
  dsimp only at goes
  split at goes
  all_goals
    cases goes
    try rfl

theorem weighedCoin_temperate : weighedCoinTree.Temperate := by
  refine ⟨?_, ?_⟩
  all_goals rw [List.forall_mem_cons, List.forall_mem_singleton]
  · exact ⟨.inl ⟨_, rfl⟩, .inl ⟨_, rfl⟩⟩
  · exact ⟨trivial, .inl ⟨_, rfl⟩, trivial⟩

theorem weighedCoin_normalized : weighedCoinTree.Normalized := by
  have half : (0 : ℝ) < 2⁻¹ := by positivity
  refine ⟨?_, ?_⟩
  · simp only [List.map_cons, List.map_nil, Exact.mass_cons, Exact.mass_nil, Exact.weight, Real.exp_log half]
    norm_num
  · rw [List.forall_mem_cons, List.forall_mem_singleton]
    exact ⟨trivial, trivial⟩

theorem weighedCoin_mass :
    Exact.mass ((weighedCoinTree.executions 0).map (·.2)) = (1 + Real.exp 1) / 2 := by
  have half : (0 : ℝ) < 2⁻¹ := by positivity
  rw [weighedCoin_executions]
  simp only [List.map_cons, List.map_nil, Exact.mass_cons, Exact.mass_nil, Exact.weight, zero_add, add_zero,
    Real.exp_add, Real.exp_log half]
  ring

/-- Two particles estimate without bias what a factor on heads leaves of the mass. -/
theorem weighedCoin_unbiased :
    ∃ n, ∀ fuel ≥ n, ∀ other,
      (estimate weighedCoin.resume fuel ⟨2, 0, .systematic⟩ 0 .empty : Expected fairCoin _).mean (evidence other) =
        ENNReal.ofReal ((1 + Real.exp 1) / 2) := by
  have keyed : ∀ e ∈ weighedCoinTree.executions 0, ∃ k, e.1.key = .ok k := by
    rw [weighedCoin_executions, List.forall_mem_cons, List.forall_mem_singleton]
    exact ⟨⟨_, rfl⟩, _, rfl⟩
  obtain ⟨n, unbiased⟩ := evidence_unbiased (σ := Script fairCoin) (c := ⟨2, 0, .systematic⟩) rfl
    weighedCoin_unfolds weighedCoin_temperate weighedCoin_normalized (fun _ _ _ _ => weighedCoin_addressed) keyed
    (by decide) rfl
  refine ⟨n, fun fuel enough other => ?_⟩
  rw [← weighedCoin_mass]
  exact (unbiased fuel enough other).2.1

end Filter

end ProbCore
