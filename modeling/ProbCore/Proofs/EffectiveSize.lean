import ProbCore.Proofs.FirstFactor

/-! The effective size of a population. The squares of the shares of the weight sum up to one at most,
and what they exceed the least possible sum by is how far the shares are from being even. A filter
weighs a population only while some weight is left in it, so that the least size it reports is between
one and the number of its particles. -/

namespace ProbCore

section

noncomputable def squares (ps : List ℝ) : ℝ := (ps.map fun p => p * p).sum

noncomputable def positives (ps : List ℝ) : Nat := ps.countP fun p => decide (0 < p)

/-- The square of how far a positive number is from a height. -/
noncomputable def unevenness (height p : ℝ) : ℝ := if 0 < p then (p - height) ^ 2 else 0

theorem unevenness_nonneg (height : ℝ) (ps : List ℝ) : ∀ y ∈ ps.map (unevenness height), 0 ≤ y := by
  refine List.forall_mem_map.mpr fun p _ => ?_
  unfold unevenness
  split
  · exact sq_nonneg _
  · exact le_refl 0

theorem unevenness_eq_zero {height p : ℝ} : unevenness height p = 0 ↔ (0 < p → p = height) := by
  unfold unevenness
  split
  next above => rw [pow_eq_zero_iff two_ne_zero, sub_eq_zero, forall_prop_of_true above]
  next below => exact iff_of_true rfl fun above => absurd above below

theorem unevenness_sum (height : ℝ) {ps : List ℝ} (nonneg : ∀ p ∈ ps, 0 ≤ p) :
    (ps.map (unevenness height)).sum = squares ps - 2 * height * ps.sum + positives ps * height ^ 2 := by
  induction ps with
  | nil => simp [squares, positives]
  | cons p ps ih =>
    obtain ⟨first, rest⟩ := List.forall_mem_cons.mp nonneg
    have rest := ih rest
    simp only [squares, positives, List.map_cons, List.sum_cons, List.countP_cons] at rest ⊢
    rw [rest, unevenness]
    rcases first.eq_or_lt with rfl | above
    · simp
    · simp only [above, if_true, decide_true]
      push_cast
      ring

/-- A list of zeros and of one other number. -/
theorem sum_of_level {ps : List ℝ} {height : ℝ} (above : 0 < height) (level : ∀ p ∈ ps, p = 0 ∨ p = height) :
    ps.sum = positives ps * height := by
  induction ps with
  | nil => simp [positives]
  | cons p ps ih =>
    obtain ⟨first, rest⟩ := List.forall_mem_cons.mp level
    have rest := ih rest
    simp only [positives, List.sum_cons, List.countP_cons] at rest ⊢
    rw [rest]
    rcases first with rfl | rfl
    · simp
    · simp only [above, decide_true, if_true]
      push_cast
      ring

/-- What a share and all others have together. -/
def overlap (p : ℝ) : ℝ := p * (1 - p)

theorem overlap_sum (ps : List ℝ) : (ps.map overlap).sum = ps.sum - squares ps := by
  induction ps with
  | nil => simp [squares]
  | cons p ps ih =>
    simp only [squares, List.map_cons, List.sum_cons] at ih ⊢
    rw [ih, overlap]
    ring

variable {ps : List ℝ} (nonneg : ∀ p ∈ ps, 0 ≤ p) (whole : ps.sum = 1)

include nonneg whole

theorem positives_pos : 0 < positives ps := by
  by_contra none
  have empty : ∀ p ∈ ps, p = 0 := by
    intro p member
    apply le_antisymm _ (nonneg p member)
    by_contra above
    exact none (List.countP_pos_iff.mpr ⟨p, member, decide_eq_true (not_le.mp above)⟩)
  rw [List.sum_eq_zero empty] at whole
  exact zero_ne_one whole

theorem squares_eq :
    squares ps = 1 / positives ps + (ps.map (unevenness (1 / positives ps))).sum := by
  have some_there : (positives ps : ℝ) ≠ 0 := Nat.cast_ne_zero.mpr (positives_pos nonneg whole).ne'
  rw [unevenness_sum _ nonneg, whole]
  field_simp
  ring

theorem least_le_squares : 1 / (positives ps : ℝ) ≤ squares ps := by
  rw [squares_eq nonneg whole]
  exact le_add_of_nonneg_right (List.sum_nonneg (unevenness_nonneg _ ps))

/-- The squares sum up to the least exactly if the positive members are all the same. -/
theorem squares_least_iff : squares ps = 1 / (positives ps : ℝ) ↔ ∃ height, ∀ p ∈ ps, 0 < p → p = height := by
  rw [squares_eq nonneg whole, add_eq_left]
  constructor
  · intro even
    refine ⟨1 / positives ps, fun p member => unevenness_eq_zero.mp ?_⟩
    exact List.all_zero_of_le_zero_le_of_sum_eq_zero (unevenness_nonneg _ ps) even (List.mem_map_of_mem member)
  · rintro ⟨height, level⟩
    obtain ⟨p, member, above⟩ := List.countP_pos_iff.mp (positives_pos nonneg whole)
    have above : 0 < height := level p member (of_decide_eq_true above) ▸ of_decide_eq_true above
    have summed := sum_of_level above fun p member => (nonneg p member).eq_or_lt'.imp_right (level p member)
    rw [whole] at summed
    refine List.sum_eq_zero (List.forall_mem_map.mpr fun p member => ?_)
    rw [unevenness_eq_zero, eq_div_of_mul_eq above.ne' summed.symm, one_div_one_div]
    exact level p member

theorem overlap_nonneg : ∀ y ∈ ps.map overlap, 0 ≤ y := by
  refine List.forall_mem_map.mpr fun p member => ?_
  have below : p ≤ 1 := whole ▸ List.single_le_sum nonneg p member
  exact mul_nonneg (nonneg p member) (sub_nonneg.mpr below)

theorem squares_le_one : squares ps ≤ 1 := by
  rw [← whole, ← sub_nonneg, ← overlap_sum]
  exact List.sum_nonneg (overlap_nonneg nonneg whole)

/-- They sum up to one exactly if only one member is positive. -/
theorem squares_eq_one_iff : squares ps = 1 ↔ positives ps = 1 := by
  constructor
  · intro total
    have none : (ps.map overlap).sum = 0 := by rw [overlap_sum, total, whole, sub_self]
    have level : ∀ p ∈ ps, p = 0 ∨ p = 1 := by
      intro p member
      have apart := List.all_zero_of_le_zero_le_of_sum_eq_zero (overlap_nonneg nonneg whole) none
        (List.mem_map_of_mem member)
      exact (mul_eq_zero.mp apart).imp_right fun rest => (sub_eq_zero.mp rest).symm
    have summed := sum_of_level one_pos level
    rw [whole, mul_one] at summed
    exact_mod_cast summed.symm
  · intro single
    have least := least_le_squares nonneg whole
    rw [single, Nat.cast_one, div_one] at least
    exact le_antisymm (squares_le_one nonneg whole) least

end

namespace Exact

open Expected (portions portions_sum portions_nonneg shares_eq)

/-- How many weights are above the impossible. -/
noncomputable def possible (ws : List Exact) : Nat := ws.countP fun w => Score.less Score.impossible w

theorem sum_nan {xs : List Exact} (among : nan ∈ xs) : Score.sum xs = nan := by
  rw [sum_eq]
  obtain ⟨before, after, rfl⟩ := List.append_of_mem among
  rw [List.sum_append, List.sum_cons, nan_add, add_nan]

/-- A share that is no number leaves no size. -/
theorem effectiveSize_nan {ws : List Exact} (among : nan ∈ Score.shares ws) : Score.effectiveSize ws = nan := by
  have squared : nan ∈ (Score.shares ws).map fun p => p * p := List.mem_map.mpr ⟨nan, among, rfl⟩
  rw [Score.effectiveSize, sum_nan squared]
  rfl

/-- No weight is lost among weights without bound. -/
theorem effectiveSize_unbounded {ws : List Exact} (spoilt : nan ∈ ws ∨ posInf ∈ ws ∧ nan ∉ ws) :
    Score.effectiveSize ws = nan := by
  apply effectiveSize_nan
  rcases spoilt with spoilt | ⟨unbounded, numbers⟩
  · refine List.mem_map.mpr ⟨nan, spoilt, ?_⟩
    rw [nan_sub]
    rfl
  · refine List.mem_map.mpr ⟨posInf, unbounded, ?_⟩
    rw [logSumExp_posInf unbounded numbers]
    rfl

variable {ws : List Exact} (finite : ∀ w ∈ ws, w.IsReal ∨ w = negInf)

include finite

theorem effectiveSize_eq (heavy : 0 < mass ws) :
    Score.effectiveSize ws = real (1 / squares (portions ws)) := by
  have squared : (Score.shares ws).map (fun p => p * p) = ((portions ws).map fun p => p * p).map real := by
    rw [shares_eq finite heavy, List.map_map, List.map_map]
    rfl
  have some_there : squares (portions ws) ≠ 0 := by
    have least := least_le_squares (portions_nonneg ws) (portions_sum heavy)
    have crowd : (0 : ℝ) < positives (portions ws) :=
      Nat.cast_pos.mpr (positives_pos (portions_nonneg ws) (portions_sum heavy))
    exact (lt_of_lt_of_le (one_div_pos.mpr crowd) least).ne'
  rw [Score.effectiveSize, squared, sum_eq, sum_reals]
  change Exact.div (real (1 : Nat)) (real (squares (portions ws))) = _
  rw [Exact.div, if_neg some_there, Nat.cast_one]

theorem positives_portions (heavy : 0 < mass ws) : positives (portions ws) = possible ws := by
  rw [positives, portions, List.countP_map, possible]
  refine List.countP_congr fun w member => ?_
  rcases finite w member with ⟨x, rfl⟩ | rfl
  · exact iff_of_true (decide_eq_true (div_pos (Real.exp_pos x) heavy)) rfl
  · refine iff_of_false (fun above => ?_) Bool.false_ne_true
    have none : negInf.weight / mass ws = 0 := zero_div _
    exact (of_decide_eq_true above).ne' none

/-- The positive shares are all the same exactly if the weights above the impossible are. -/
theorem level_iff (heavy : 0 < mass ws) :
    (∃ height, ∀ p ∈ portions ws, 0 < p → p = height) ↔ ∀ x y, real x ∈ ws → real y ∈ ws → x = y := by
  have share (x : ℝ) : 0 < Real.exp x / mass ws := div_pos (Real.exp_pos x) heavy
  constructor
  · rintro ⟨height, level⟩ x y left right
    have left := level _ (List.mem_map_of_mem left) (share x)
    have right := level _ (List.mem_map_of_mem right) (share y)
    exact Real.exp_injective ((div_left_inj' heavy.ne').mp (left.trans right.symm))
  · intro level
    by_cases some_real : ∃ x, real x ∈ ws
    · obtain ⟨x, present⟩ := some_real
      refine ⟨Real.exp x / mass ws, List.forall_mem_map.mpr fun w member above => ?_⟩
      rcases finite w member with ⟨y, rfl⟩ | rfl
      · rw [level x y present member]
        rfl
      · exact absurd (zero_div (mass ws)) above.ne'
    · refine ⟨0, List.forall_mem_map.mpr fun w member above => ?_⟩
      rcases finite w member with ⟨y, rfl⟩ | rfl
      · exact absurd ⟨y, member⟩ some_real
      · exact zero_div _

/-- The size is between one and the number of weights above the impossible. It is one if there is only one
of these, and their number if they are all the same. -/
theorem effectiveSize_between (heavy : 0 < mass ws) :
    ∃ x, Score.effectiveSize ws = real x ∧ 1 ≤ x ∧ x ≤ possible ws ∧ (x = 1 ↔ possible ws = 1) ∧
      (x = possible ws ↔ ∀ y z, real y ∈ ws → real z ∈ ws → y = z) := by
  have nonneg := portions_nonneg ws
  have whole := portions_sum heavy
  have least := least_le_squares nonneg whole
  have greatest := squares_le_one nonneg whole
  have crowd : (0 : ℝ) < positives (portions ws) := Nat.cast_pos.mpr (positives_pos nonneg whole)
  have some_there : 0 < squares (portions ws) := lt_of_lt_of_le (one_div_pos.mpr crowd) least
  refine ⟨_, effectiveSize_eq finite heavy, one_le_one_div some_there greatest, ?_⟩
  rw [← positives_portions finite heavy, ← level_iff finite heavy, ← squares_eq_one_iff nonneg whole,
    ← squares_least_iff nonneg whole]
  refine ⟨(one_div_le some_there crowd).mpr least, ?_, ?_⟩
  · rw [div_eq_one_iff_eq some_there.ne', eq_comm]
  · constructor
    · intro same
      rw [← same, one_div_one_div]
    · intro same
      rw [same, one_div_one_div]

omit finite in
theorem weight_shift (w : Exact) (c : ℝ) : (w + real c).weight = w.weight * Real.exp c := by
  cases w with
  | real x => exact Real.exp_add x c
  | negInf | posInf | nan => exact (zero_mul _).symm

omit finite in
theorem mass_shift (ws : List Exact) (c : ℝ) : mass (ws.map (· + real c)) = mass ws * Real.exp c := by
  rw [mass, List.map_map, mass, ← List.sum_map_mul_right]
  exact congrArg List.sum (List.map_congr_left fun w _ => weight_shift w c)

omit finite in
theorem portions_shift (ws : List Exact) (c : ℝ) : portions (ws.map (· + real c)) = portions ws := by
  rw [portions, portions, List.map_map, mass_shift]
  refine List.map_congr_left fun w _ => ?_
  rw [Function.comp_apply, weight_shift, mul_div_mul_right _ _ (Real.exp_ne_zero c)]

omit finite in
theorem squares_perm {ws vs : List Exact} (same : vs.Perm ws) :
    squares (portions vs) = squares (portions ws) := by
  rw [squares, squares, portions, portions, mass_perm same]
  exact ((same.map _).map _).sum_eq

theorem effectiveSize_shift (heavy : 0 < mass ws) (c : ℝ) :
    Score.effectiveSize (ws.map (· + real c)) = Score.effectiveSize ws := by
  have finite' : ∀ w ∈ ws.map (· + real c), w.IsReal ∨ w = negInf := by
    refine List.forall_mem_map.mpr fun w member => ?_
    rcases finite w member with ⟨x, rfl⟩ | rfl
    · exact .inl ⟨x + c, real_add x c⟩
    · exact .inr rfl
  have heavy' : 0 < mass (ws.map (· + real c)) := mass_shift ws c ▸ mul_pos heavy (Real.exp_pos c)
  rw [effectiveSize_eq finite' heavy', effectiveSize_eq finite heavy, portions_shift]

theorem effectiveSize_perm (heavy : 0 < mass ws) {vs : List Exact} (same : vs.Perm ws) :
    Score.effectiveSize vs = Score.effectiveSize ws := by
  have finite' : ∀ w ∈ vs, w.IsReal ∨ w = negInf := fun w member => finite w (same.mem_iff.mp member)
  rw [effectiveSize_eq finite' (mass_perm same ▸ heavy), effectiveSize_eq finite heavy, squares_perm same]

omit finite in
/-- Weights that have a total have a size, between one and their number, but for weights without bound. -/
theorem effectiveSize_cases (total : Score.isImpossible (Score.logSumExp ws) = false) :
    Score.effectiveSize ws = nan ∨ ∃ x, Score.effectiveSize ws = real x ∧ 1 ≤ x ∧ x ≤ ws.length := by
  rcases weights_cases ws with spoilt | unbounded | finite
  · exact .inl (effectiveSize_unbounded (.inl spoilt))
  · exact .inl (effectiveSize_unbounded (.inr unbounded))
  have heavy : 0 < mass ws := by
    rw [logSumExp_ofMass finite] at total
    refine lt_of_le_of_ne (mass_nonneg ws) fun weightless => ?_
    rw [← weightless, ofMass_zero] at total
    cases total
  obtain ⟨x, known, least, greatest, _⟩ := effectiveSize_between finite heavy
  exact .inr ⟨x, known, least, greatest.trans (Nat.cast_le.mpr List.countP_le_length)⟩

omit finite in
theorem least_between {x y : Exact} {n : ℝ} (before : ∃ z, x = real z ∧ 1 ≤ z ∧ z ≤ n)
    (next : y = nan ∨ ∃ z, y = real z ∧ 1 ≤ z ∧ z ≤ n) : ∃ z, Score.least x y = real z ∧ 1 ≤ z ∧ z ≤ n := by
  obtain ⟨a, rfl, bounds⟩ := before
  rcases next with rfl | ⟨b, rfl, others⟩
  · exact ⟨a, rfl, bounds⟩
  · unfold Score.least
    split
    · exact ⟨b, rfl, others⟩
    · exact ⟨a, rfl, bounds⟩

end Exact

namespace Filter

section

variable {σ κ D : Type} [Host (EStateM Failure σ) D Exact] [SoundHost σ D Exact]
  {resume : Resume (EStateM Failure σ) κ D Exact} {steps fuel : Nat} {c : Config}
  {ps qs : List (Particle κ D Exact)} {mass : Exact} {report : Report Exact} {out : Outcome κ D Exact}

theorem resample_counted (counted : Counted σ) (some_there : ps ≠ [])
    (yields : Yields (resample c ps : EStateM Failure σ _) qs) : qs.length ≤ ps.length := by
  obtain ⟨indices, selected, yields⟩ := Yields.bind yields
  have weights : ps.map (·.weight) ≠ [] := by simpa using some_there
  rw [yields.pure, ← (select_members counted weights selected).1]
  exact List.length_filterMap_le _ _

omit [SoundHost σ D Exact] in
theorem moveAll_length {limit : Nat} (yields : Yields (moveAll resume steps c limit ps) qs) :
    qs.length = ps.length := by
  unfold moveAll at yields
  split at yields
  · rw [yields.pure]
  · exact yields.mapM_length

omit [SoundHost σ D Exact] [Host (EStateM Failure σ) D Exact] in
theorem logMeanWeight_ok {mean : Exact} (known : Particle.logMeanWeight ps = .ok mean) :
    Score.isImpossible (Score.logSumExp (ps.map (·.weight))) = false := by
  unfold Particle.logMeanWeight at known
  dsimp only at known
  split at known
  next => cases known
  next weighty => simpa using weighty

/-- A population in which no weight is left ends the run, so that there is a size in each of its rounds. -/
theorem rounds_leastSize (counted : Counted σ) {n : Nat} (few : ps.length ≤ n)
    (before : ∃ x, report.leastSize = .real x ∧ 1 ≤ x ∧ x ≤ n)
    (yields : Yields (rounds resume steps c fuel ps mass report) out) :
    ∃ x, out.report.leastSize = .real x ∧ 1 ≤ x ∧ x ≤ n := by
  induction fuel generalizing ps mass report with
  | zero => exact yields.not_fail
  | succ fuel ih =>
    obtain ⟨qs, mean, advanced, known, ⟨_, rfl⟩ | ⟨unfinished, drawn, moved, resampled, rejuvenated, yields⟩⟩ :=
      rounds_cases yields
    · exact before
    · have count := advanced.mapM_length
      have some_there : qs ≠ [] := by
        rintro rfl
        cases unfinished
      have fewer := resample_counted counted some_there resampled
      have same := moveAll_length rejuvenated
      refine ih (by omega) ?_ yields
      apply Exact.least_between before
      refine (Exact.effectiveSize_cases (logMeanWeight_ok known)).imp_right ?_
      rintro ⟨x, size, least, greatest⟩
      have within : (qs.map (·.weight)).length ≤ n := by rw [List.length_map]; omega
      exact ⟨x, size, least, greatest.trans (Nat.cast_le.mpr within)⟩

theorem run_leastSize (counted : Counted σ) (yields : Yields (run resume fuel c ps) out) :
    ∃ x, out.report.leastSize = .real x ∧ 1 ≤ x ∧ x ≤ ps.length := by
  have some_there : ps ≠ [] := by
    rintro rfl
    unfold run at yields
    cases fuel with
    | zero => exact yields.not_fail
    | succ fuel =>
      obtain ⟨qs, mean, advanced, known, _⟩ := rounds_cases yields
      obtain rfl := advanced.pure
      have empty := logMeanWeight_ok known
      cases empty
  refine rounds_leastSize counted le_rfl ⟨ps.length, rfl, ?_, le_rfl⟩ yields
  exact Nat.one_le_cast.mpr (List.length_pos_iff.mpr some_there)

end

/-- The effective size of weights that are numbers or impossible, some of them a number. It is between one
and the number of those above the impossible. It is one exactly if only one is, and their number exactly if
these are all the same; a common amount added to all weights, and their order, make no difference. Whatever
population a filter starts with, the least size that it reports is between one and the size of this
population. -/
theorem effective_size_bounds {σ κ D : Type} [Host (EStateM Failure σ) D Exact] [SoundHost σ D Exact]
    (counted : Counted σ) :
    (∀ ws : List Exact, (∀ w ∈ ws, w.IsReal ∨ w = .negInf) → (∃ w ∈ ws, w.IsReal) →
      ∃ x, Score.effectiveSize ws = .real x ∧ 1 ≤ x ∧ x ≤ Exact.possible ws ∧
        (x = 1 ↔ Exact.possible ws = 1) ∧
        (x = Exact.possible ws ↔ ∀ y z, .real y ∈ ws → .real z ∈ ws → y = z) ∧
        (∀ shift, Score.effectiveSize (ws.map (· + .real shift)) = .real x) ∧
        ∀ vs, vs.Perm ws → Score.effectiveSize vs = .real x) ∧
    ∀ (resume : Resume (EStateM Failure σ) κ D Exact) (fuel : Nat) (c : Config)
      (ps : List (Particle κ D Exact)) (out : Outcome κ D Exact), Yields (run resume fuel c ps) out →
        ∃ x, out.report.leastSize = .real x ∧ 1 ≤ x ∧ x ≤ ps.length := by
  constructor
  · intro ws finite heavy
    have heavy := Exact.mass_pos_of_real heavy
    obtain ⟨x, size, least, greatest, single, level⟩ := Exact.effectiveSize_between finite heavy
    refine ⟨x, size, least, greatest, single, level, fun shift => ?_, fun vs same => ?_⟩
    · rw [Exact.effectiveSize_shift finite heavy, size]
    · rw [Exact.effectiveSize_perm finite heavy same, size]
  · intro resume fuel c ps out yields
    exact run_leastSize counted yields

/-- Two equal weights count as two beside an impossible one; a filter of one particle reports a least size of
one. -/
theorem two_effective : Score.effectiveSize [Exact.real 0, .negInf, .real 0] = .real 2 ∧
    ∃ out, Yields (run headsResume 3 ⟨1, 0, .multinomial⟩ [⟨.start 0 .empty, Score.zero⟩]) out ∧
      out.report.leastSize = .real 1 := by
  have counted : Counted (Careful fairCoin) := careful_counted
  obtain ⟨lists, runs⟩ := effective_size_bounds counted (κ := Nat)
  constructor
  · have finite : ∀ w ∈ [Exact.real 0, .negInf, .real 0], w.IsReal ∨ w = .negInf := by
      simp [Exact.IsReal]
    obtain ⟨x, size, _, _, _, level, _⟩ := lists _ finite ⟨.real 0, List.mem_cons_self, 0, rfl⟩
    have two : Exact.possible [Exact.real 0, .negInf, .real 0] = 2 := rfl
    have same : x = 2 := by
      rw [two] at level
      refine level.mpr fun y z left right => ?_
      simp only [List.mem_cons, Exact.real.injEq, reduceCtorEq, List.not_mem_nil, or_false, false_or,
        or_self] at left right
      rw [left, right]
    rw [size, same]
  · obtain ⟨out, w, _, ran⟩ := heads_begun Score.zero ⟨0, Score.ofNat 1⟩
    have yields : Yields (run headsResume 3 ⟨1, 0, .multinomial⟩ [⟨.start 0 .empty, Score.zero⟩]) out :=
      ⟨_, _, ran⟩
    obtain ⟨x, size, least, greatest⟩ := runs _ _ _ _ _ yields
    have single : x = 1 := le_antisymm (by simpa using greatest) least
    exact ⟨out, yields, single ▸ size⟩

end Filter

end ProbCore
