import ProbCore.Proofs.Expectation
import ProbCore.Strategy.Particle

/-! Resampling is fair. By either method, each of the members drawn is worth on average what the
members of the population are worth by their shares of the weight. -/

namespace ProbCore

section

variable {R : Type} [Score R]

theorem length_cumulative (xs : List R) : (Score.cumulative xs).length = xs.length := by
  have rest (before : R) (ys : List R) : (Score.cumulative.go before ys).length = ys.length + 1 := by
    induction ys generalizing before with
    | nil => rfl
    | cons y ys ih => simp [Score.cumulative.go, ih]
  cases xs with
  | nil => rfl
  | cons x xs => exact rest x xs

/-- `Score.systematic` as it would be if every point fell below the last sum: no index is brought
back to the last position. -/
def Score.unbounded (weights : List R) (offset : R) (n : Nat) : Except Failure (List Nat) :=
  let sums := cumulative (shares weights)
  match sums.getLast? with
  | none => .error .noSuchPosition
  | some last =>
    let sums := sums.map (· / last)
    .ok ((List.range n).map fun i => locate.go ((ofNat i + offset) / ofNat n) sums)

theorem Score.systematic_eq_bounded (weights : List R) (offset : R) (n : Nat) :
    Score.systematic weights offset n =
      (Score.unbounded weights offset n).map (List.map (min · (weights.length - 1))) := by
  have long : (Score.cumulative (Score.shares weights)).length = weights.length := by
    rw [length_cumulative, Score.shares, List.length_map]
  unfold Score.systematic Score.unbounded
  dsimp only
  cases (Score.cumulative (Score.shares weights)).getLast? with
  | none => rfl
  | some last =>
    simp only [Except.map, List.map_map, Except.ok.injEq]
    apply List.map_congr_left
    intro i _
    rw [Score.locate, List.length_map, long, Function.comp_apply]

end

namespace Expected

open MeasureTheory
open scoped ENNReal

variable {D : Type} {laws : Densities D Exact}

/-- What the members of a population are worth by their shares of the weight. -/
noncomputable def weighted (weights : List Exact) (worth : Nat → ℝ≥0∞) : ℝ≥0∞ :=
  (weights.zipIdx.map fun (w, i) => chance w / ENNReal.ofReal (Exact.mass weights) * worth i).sum

/-- Indices of members that have weight, and what these members are worth together. -/
def Selects (weights : List Exact) (n : Nat) (worth : Nat → ℝ≥0∞) (indices : List Nat) (v : ℝ≥0∞) : Prop :=
  indices.length = n ∧ (∀ i ∈ indices, ∃ w, weights[i]? = some w ∧ w.IsReal) ∧ v = (indices.map worth).sum

variable {weights : List Exact}

theorem zipIdx_map_firsts {α β : Type} (g : α → β) (items : List α) :
    items.zipIdx.map (fun p => g p.1) = items.map g := by
  conv_rhs => rw [← List.zipIdx_map_fst 0 items, List.map_map]
  rfl

theorem shares_total (positive : 0 < Exact.mass weights) :
    (weights.zipIdx.map fun p => chance p.1 / ENNReal.ofReal (Exact.mass weights)).sum = 1 := by
  simp only [div_eq_mul_inv]
  rw [zipIdx_map_firsts fun w => chance w * (ENNReal.ofReal (Exact.mass weights))⁻¹, List.sum_map_mul_right,
    chance_sum]
  exact ENNReal.mul_inv_cancel (ENNReal.ofReal_pos.mpr positive).ne' ENNReal.ofReal_ne_top

theorem Averages.pick (positive : 0 < Exact.mass weights) (worth : Nat → ℝ≥0∞) :
    Averages (pick weights : Expected laws Nat)
      (fun i v => (∃ w, weights[i]? = some w ∧ w.IsReal) ∧ v = worth i) (weighted weights worth) := by
  apply of_list weights.zipIdx (fun p => chance p.1 / ENNReal.ofReal (Exact.mass weights)) (fun p => p.2)
    (fun p => worth p.2) (fun f => rfl) (shares_total positive)
  intro p member likely
  refine ⟨⟨p.1, List.mem_zipIdx_iff_getElem?.mp member, chance_ne_zero ?_⟩, rfl⟩
  intro unlikely
  exact likely (by rw [unlikely, ENNReal.zero_div])

theorem Averages.categorical (positive : 0 < Exact.mass weights) (n : Nat) (worth : Nat → ℝ≥0∞) :
    Averages (Host.categorical weights n : Expected laws (List Nat)) (Selects weights n worth)
      (n * weighted weights worth) := by
  have each : ∀ b ∈ List.replicate n ((), weighted weights worth), Averages (Expected.pick weights : Expected laws Nat)
      (fun i v => (∃ w, weights[i]? = some w ∧ w.IsReal) ∧ v = worth i) b.2 := by
    intro b member
    rw [List.eq_of_mem_replicate member]
    exact .pick positive worth
  have all : Averages (((List.replicate n ((), weighted weights worth)).map (·.1)).mapM fun _ =>
      (Expected.pick weights : Expected laws Nat)) _ _ := .mapM each
  rw [List.map_replicate, List.map_replicate, List.sum_replicate, nsmul_eq_mul] at all
  refine all.mono ?_
  rintro _ _ ⟨made, rfl, count, held, rfl⟩
  rw [List.length_replicate] at count
  refine ⟨by rw [List.length_map, count], ?_, ?_⟩
  · intro i member
    obtain ⟨a, present, rfl⟩ := List.mem_map.mp member
    exact (held a present).1
  · rw [List.map_map]
    exact congrArg List.sum (List.map_congr_left fun a present => (held a present).2)

section

/-- The sums of the first members of a list, from a sum before them on. -/
def runningSums (before : ℝ) : List ℝ → List ℝ
  | [] => []
  | y :: rest => (before + y) :: runningSums (before + y) rest

open Classical in
/-- The first position whose sum is above a point. -/
noncomputable def place (x : ℝ) : List ℝ → Nat
  | [] => 0
  | c :: rest => if x < c then 0 else place x rest + 1

theorem cumulative_go (before : ℝ) (ys : List ℝ) :
    Score.cumulative.go (.real before) (ys.map Exact.real) =
      .real before :: (runningSums before ys).map Exact.real := by
  induction ys generalizing before with
  | nil => rfl
  | cons y ys ih =>
    rw [List.map_cons, Score.cumulative.go, Exact.real_add, ih]
    rfl

theorem locate_go (x : ℝ) (sums : List ℝ) :
    Score.locate.go (.real x) (sums.map Exact.real) = place x sums := by
  induction sums with
  | nil => rfl
  | cons c sums ih =>
    rw [List.map_cons, Score.locate.go, ih, place]
    have compared : (Score.less (Exact.real x) (Exact.real c) || Score.isNaN (Exact.real c)) = decide (x < c) :=
      Bool.or_false _
    rw [compared]
    simp only [decide_eq_true_eq]

theorem place_mono (sums : List ℝ) : Monotone fun x => place x sums := by
  induction sums with
  | nil => exact fun _ _ _ => le_rfl
  | cons c sums ih =>
    intro x y below
    simp only [place]
    split
    next => exact Nat.zero_le _
    next above =>
      rw [if_neg (not_lt.mpr ((not_lt.mp above).trans below))]
      exact Nat.succ_le_succ (ih below)

/-- A point below the last sum is placed at a member that adds something. -/
theorem place_found {ys : List ℝ} {before x : ℝ} (from_there : before ≤ x) (below : x < before + ys.sum) :
    ∃ y, ys[place x (runningSums before ys)]? = some y ∧ 0 < y := by
  induction ys generalizing before with
  | nil =>
    rw [List.sum_nil, add_zero] at below
    exact absurd below from_there.not_gt
  | cons y ys ih =>
    rw [runningSums, place]
    split
    next here => exact ⟨y, rfl, by linarith⟩
    next above =>
      rw [List.sum_cons, ← add_assoc] at below
      exact ih (not_lt.mp above) below

/-- Over all points below the last sum, each member is found on a stretch of its own length. -/
theorem lintegral_place {n : ℝ} (positive : 0 < n) {ys : List ℝ} (nonneg : ∀ y ∈ ys, 0 ≤ y) (before : ℝ)
    (worth : Nat → ℝ≥0∞) :
    ∫⁻ x in Set.Ico (n * before) (n * (before + ys.sum)), worth (place (x / n) (runningSums before ys)) =
      (ys.zipIdx.map fun p => ENNReal.ofReal (n * p.1) * worth p.2).sum := by
  induction ys generalizing before worth with
  | nil => simp
  | cons y ys ih =>
    obtain ⟨first, rest⟩ := List.forall_mem_cons.mp nonneg
    have later : 0 ≤ ys.sum := List.sum_nonneg rest
    have split : Set.Ico (n * before) (n * (before + (y :: ys).sum)) =
        Set.Ico (n * before) (n * (before + y)) ∪ Set.Ico (n * (before + y)) (n * (before + y + ys.sum)) := by
      rw [Set.Ico_union_Ico_eq_Ico (by nlinarith) (by nlinarith), List.sum_cons, add_assoc]
    have apart : Disjoint (Set.Ico (n * before) (n * (before + y)))
        (Set.Ico (n * (before + y)) (n * (before + y + ys.sum))) :=
      Set.Ico_disjoint_Ico_same
    have here : ∀ x ∈ Set.Ico (n * before) (n * (before + y)),
        worth (place (x / n) (runningSums before (y :: ys))) = worth 0 := by
      intro x inside
      rw [runningSums, place, if_pos ((div_lt_iff₀' positive).mpr inside.2)]
    have there : ∀ x ∈ Set.Ico (n * (before + y)) (n * (before + y + ys.sum)),
        worth (place (x / n) (runningSums before (y :: ys))) =
          worth (place (x / n) (runningSums (before + y) ys) + 1) := by
      intro x inside
      rw [runningSums, place, if_neg (not_lt.mpr ((le_div_iff₀' positive).mpr inside.1))]
    rw [split, lintegral_union measurableSet_Ico apart, setLIntegral_congr_fun measurableSet_Ico here,
      setLIntegral_congr_fun measurableSet_Ico there, ih rest (before + y) fun i => worth (i + 1),
      setLIntegral_const, Real.volume_Ico, ← mul_sub, add_sub_cancel_left, mul_comm, List.zipIdx_cons,
      List.map_cons, List.sum_cons, zero_add, List.zipIdx_succ, List.map_map]
    rfl

/-- One offset for each of `n` unit intervals reaches all points below `n`. -/
theorem sum_lintegral_shifts (n : Nat) (g : ℝ → ℝ≥0∞) :
    ((List.range n).map fun i : Nat => ∫⁻ u in Set.Ico (0 : ℝ) 1, g (i + u)).sum =
      ∫⁻ x in Set.Ico (0 : ℝ) n, g x := by
  induction n with
  | zero => simp
  | succ n ih =>
    have split : Set.Ico (0 : ℝ) (n + 1 : Nat) = Set.Ico 0 (n : ℝ) ∪ Set.Ico (n : ℝ) (n + 1) := by
      rw [Nat.cast_add_one, Set.Ico_union_Ico_eq_Ico n.cast_nonneg (by linarith)]
    have moved : ∫⁻ u in Set.Ico (0 : ℝ) 1, g (n + u) = ∫⁻ x in Set.Ico (n : ℝ) (n + 1), g x := by
      have kept := (measurePreserving_add_left volume (n : ℝ)).setLIntegral_comp_preimage_emb
        (MeasurableEquiv.addLeft (n : ℝ)).measurableEmbedding g (Set.Ico (n : ℝ) (n + 1))
      rw [← kept]
      simp
    rw [List.range_succ, List.map_append, List.sum_append, ih, split,
      lintegral_union measurableSet_Ico Set.Ico_disjoint_Ico_same, List.map_singleton, List.sum_singleton, moved]

/-- An outcome that is a function of the offset. -/
theorem Averages.of_offset {β : Type} [Countable β] [MeasurableSpace β] [MeasurableSingletonClass β]
    {x : Expected laws β} {found : ℝ → β} (measurable : Measurable found)
    (expects : ∀ f, x.mean f = ∫⁻ u in Set.Ico (0 : ℝ) 1, f (.ok (found u)))
    {holds : β → ℝ≥0∞ → Prop} (worth : β → ℝ≥0∞)
    (held : ∀ u ∈ Set.Ico (0 : ℝ) 1, holds (found u) (worth (found u))) :
    Averages x holds (∫⁻ u in Set.Ico (0 : ℝ) 1, worth (found u)) := by
  let law := (volume.restrict (Set.Ico (0 : ℝ) 1)).map found
  have counted (g : β → ℝ≥0∞) :
      ∫⁻ u in Set.Ico (0 : ℝ) 1, g (found u) = tsum fun b => law {b} * g b := by
    rw [← lintegral_map (measurable_of_countable g) measurable, lintegral_countable']
    exact tsum_congr fun b => mul_comm ..
  let out : Outcomes x := ⟨β, fun b => law {b}, id, fun f => (expects f).trans (counted fun b => f (.ok b)), by
    simpa using (counted fun _ => 1).symm⟩
  rw [counted worth]
  refine of_outcomes out worth fun b likely => ?_
  obtain ⟨u, same, inside⟩ : (Set.preimage found {b} ∩ Set.Ico (0 : ℝ) 1).Nonempty := by
    refine nonempty_of_measure_ne_zero (μ := volume) fun unlikely => likely ?_
    change law {b} = 0
    rw [Measure.map_apply measurable (measurableSet_singleton b),
      Measure.restrict_apply (measurable (measurableSet_singleton b)), unlikely]
  rw [← same]
  exact held u inside

/-- The shares of the weight, as numbers. -/
noncomputable def portions (weights : List Exact) : List ℝ := weights.map fun w => w.weight / Exact.mass weights

theorem portions_sum (positive : 0 < Exact.mass weights) : (portions weights).sum = 1 := by
  simp only [portions, div_eq_mul_inv]
  rw [List.sum_map_mul_right]
  exact mul_inv_cancel₀ positive.ne'

theorem portions_nonneg (weights : List Exact) : ∀ y ∈ portions weights, 0 ≤ y := by
  intro y member
  obtain ⟨w, _, rfl⟩ := List.mem_map.mp member
  exact div_nonneg w.weight_nonneg (Exact.mass_nonneg weights)

theorem shares_eq (finite : ∀ w ∈ weights, w.IsReal ∨ w = .negInf) (positive : 0 < Exact.mass weights) :
    Score.shares weights = (portions weights).map Exact.real := by
  have total : Score.logSumExp weights = .real (Real.log (Exact.mass weights)) := by
    rw [Exact.logSumExp_ofMass finite, Exact.ofMass_pos positive]
  rw [Score.shares, portions, List.map_map]
  refine List.map_congr_left fun w member => ?_
  rw [total]
  rcases finite w member with ⟨x, rfl⟩ | rfl
  · rw [Exact.real_sub, Exact.exp_real, Real.exp_sub, Real.exp_log positive]
    rfl
  · exact congrArg Exact.real (zero_div _).symm

theorem cumulative_eq (ys : List ℝ) :
    Score.cumulative (ys.map Exact.real) = (runningSums 0 ys).map Exact.real := by
  cases ys with
  | nil => rfl
  | cons y ys =>
    rw [List.map_cons, Score.cumulative, cumulative_go, runningSums, zero_add]
    rfl

theorem getLast?_runningSums (before : ℝ) {ys : List ℝ} (nonempty : ys ≠ []) :
    (runningSums before ys).getLast? = some (before + ys.sum) := by
  induction ys generalizing before with
  | nil => exact absurd rfl nonempty
  | cons y ys ih =>
    cases ys with
    | nil => simp [runningSums]
    | cons z zs =>
      rw [runningSums, List.sum_cons, ← add_assoc, ← ih (before + y) (List.cons_ne_nil z zs), runningSums,
        List.getLast?_cons_cons]

/-- The member that a point falls to. -/
noncomputable def fallsTo (weights : List Exact) (x : ℝ) : Nat :=
  min (place x (runningSums 0 (portions weights))) (weights.length - 1)

theorem fallsTo_found (positive : 0 < Exact.mass weights) {x : ℝ} (inside : x ∈ Set.Ico (0 : ℝ) 1) :
    fallsTo weights x = place x (runningSums 0 (portions weights)) ∧
      ∃ w, weights[fallsTo weights x]? = some w ∧ w.IsReal := by
  have below : x < 0 + (portions weights).sum := by
    rw [portions_sum positive, zero_add]
    exact inside.2
  obtain ⟨y, found, long⟩ := place_found inside.1 below
  obtain ⟨w, there, rfl⟩ := Option.map_eq_some_iff.mp ((List.getElem?_map ..).symm.trans found)
  have listed := (List.getElem?_eq_some_iff.mp there).1
  have same : fallsTo weights x = place x (runningSums 0 (portions weights)) := min_eq_left (by omega)
  refine ⟨same, w, same ▸ there, ?_⟩
  cases w with
  | real z => exact ⟨z, rfl⟩
  | negInf | posInf | nan => exact absurd (zero_div (Exact.mass weights)) long.ne'

/-- Points are placed among the sums of the shares, which come to one. -/
theorem unbounded_eq (finite : ∀ w ∈ weights, w.IsReal ∨ w = .negInf) (positive : 0 < Exact.mass weights)
    {n : Nat} (some_there : n ≠ 0) (u : ℝ) :
    Score.unbounded weights (.real u) n =
      .ok ((List.range n).map fun i : Nat => place ((i + u) / n) (runningSums 0 (portions weights))) := by
  have nonempty : portions weights ≠ [] := by
    intro empty
    have total := portions_sum positive
    rw [empty] at total
    exact zero_ne_one total
  have last : ((runningSums 0 (portions weights)).map Exact.real).getLast? = some (.real 1) := by
    rw [List.getLast?_map, getLast?_runningSums 0 nonempty, portions_sum positive, zero_add]
    rfl
  have whole : ((runningSums 0 (portions weights)).map Exact.real).map (· / Exact.real 1) =
      (runningSums 0 (portions weights)).map Exact.real := by
    rw [List.map_map]
    refine List.map_congr_left fun x _ => ?_
    change Exact.div (.real x) (.real 1) = _
    rw [Exact.div, if_neg one_ne_zero, div_one]
  unfold Score.unbounded
  rw [shares_eq finite positive, cumulative_eq]
  dsimp only
  rw [last]
  dsimp only
  rw [whole]
  congr 1
  refine List.map_congr_left fun i _ => ?_
  have point : (Score.ofNat i + Exact.real u) / (Score.ofNat n : Exact) = .real ((i + u) / n) := by
    change Exact.div (.real (i + u)) (.real n) = _
    rw [Exact.div, if_neg (Nat.cast_ne_zero.mpr some_there)]
  rw [point, locate_go]

theorem systematic_eq (finite : ∀ w ∈ weights, w.IsReal ∨ w = .negInf) (positive : 0 < Exact.mass weights)
    (n : Nat) (some_there : n ≠ 0) (u : ℝ) :
    Score.systematic weights (.real u) n = .ok ((List.range n).map fun i : Nat => fallsTo weights ((i + u) / n)) := by
  rw [Score.systematic_eq_bounded, unbounded_eq finite positive some_there]
  simp only [Except.map, List.map_map]
  rfl

theorem measurable_fallsTo (weights : List Exact) : Measurable (fallsTo weights) := by
  refine Monotone.measurable fun x y below => ?_
  exact min_le_min_right _ (place_mono _ below)

instance indicesMeasurable : MeasurableSpace (List Nat) := ⊤

theorem measurable_spread (weights : List Exact) (n : Nat) (indices : List Nat) :
    Measurable fun u : ℝ => indices.map fun i : Nat => fallsTo weights ((i + u) / n) := by
  induction indices with
  | nil => exact measurable_const
  | cons i indices ih =>
    have first : Measurable fun u : ℝ => fallsTo weights ((i + u) / n) :=
      (measurable_fallsTo weights).comp ((measurable_const_add (i : ℝ)).div_const n)
    exact (measurable_of_countable fun p : Nat × List Nat => p.1 :: p.2).comp (first.prodMk ih)

theorem spread_mean (positive : 0 < Exact.mass weights) {n : Nat} (some_there : n ≠ 0) (worth : Nat → ℝ≥0∞) :
    ∫⁻ u in Set.Ico (0 : ℝ) 1, (((List.range n).map fun i : Nat => fallsTo weights ((i + u) / n)).map worth).sum =
      n * weighted weights worth := by
  have long : (0 : ℝ) < n := Nat.cast_pos.mpr (Nat.pos_of_ne_zero some_there)
  have summed (indices : List Nat) :
      ∫⁻ u in Set.Ico (0 : ℝ) 1, ((indices.map fun i : Nat => fallsTo weights ((i + u) / n)).map worth).sum =
        (indices.map fun i : Nat => ∫⁻ u in Set.Ico (0 : ℝ) 1, worth (fallsTo weights ((i + u) / n))).sum := by
    induction indices with
    | nil => simp
    | cons i indices ih =>
      have first : Measurable fun u : ℝ => worth (fallsTo weights ((i + u) / n)) :=
        (measurable_of_countable worth).comp
          ((measurable_fallsTo weights).comp ((measurable_const_add (i : ℝ)).div_const n))
      simp only [List.map_cons, List.sum_cons]
      rw [lintegral_add_left first, ih]
  have inside : ∀ x ∈ Set.Ico (0 : ℝ) n,
      worth (fallsTo weights (x / n)) = worth (place (x / n) (runningSums 0 (portions weights))) := by
    intro x member
    have unit : x / n ∈ Set.Ico (0 : ℝ) 1 := ⟨div_nonneg member.1 long.le, (div_lt_one long).mpr member.2⟩
    rw [(fallsTo_found positive unit).1]
  have placed := lintegral_place long (portions_nonneg weights) 0 worth
  rw [mul_zero, portions_sum positive, zero_add, mul_one] at placed
  rw [summed, sum_lintegral_shifts n fun x => worth (fallsTo weights (x / n)),
    setLIntegral_congr_fun measurableSet_Ico inside, placed, weighted, portions, List.zipIdx_map, List.map_map,
    ← List.sum_map_mul_left]
  congr 1
  refine List.map_congr_left fun p _ => ?_
  change ENNReal.ofReal (n * (p.1.weight / Exact.mass weights)) * worth p.2 = _
  rw [ENNReal.ofReal_mul long.le, ENNReal.ofReal_natCast, ENNReal.ofReal_div_of_pos positive, mul_assoc]
  rfl

theorem Averages.systematic (finite : ∀ w ∈ weights, w.IsReal ∨ w = .negInf) (positive : 0 < Exact.mass weights)
    {n : Nat} (some_there : n ≠ 0) (worth : Nat → ℝ≥0∞) :
    Averages (Particle.select .systematic weights n : Expected laws (List Nat)) (Selects weights n worth)
      (n * weighted weights worth) := by
  have expects (f : Except Failure (List Nat) → ℝ≥0∞) :
      (Particle.select .systematic weights n : Expected laws (List Nat)).mean f =
        ∫⁻ u in Set.Ico (0 : ℝ) 1, f (.ok ((List.range n).map fun i : Nat => fallsTo weights ((i + u) / n))) := by
    change ∫⁻ u in Set.Ico (0 : ℝ) 1, (Host.lift (Score.systematic weights (.real u) n) : Expected laws _).mean f = _
    simp only [systematic_eq finite positive n some_there]
    rfl
  rw [← spread_mean positive some_there worth]
  refine of_offset (measurable_spread weights n (List.range n)) expects (fun indices => (indices.map worth).sum)
    fun u inside => ⟨by simp, fun i member => ?_, rfl⟩
  obtain ⟨j, below, rfl⟩ := List.mem_map.mp member
  have long : (0 : ℝ) < n := Nat.cast_pos.mpr (Nat.pos_of_ne_zero some_there)
  have above : (j : ℝ) + 1 ≤ n := by exact_mod_cast List.mem_range.mp below
  have unit : (j + u) / n ∈ Set.Ico (0 : ℝ) 1 :=
    ⟨div_nonneg (add_nonneg j.cast_nonneg inside.1) long.le, (div_lt_one long).mpr (by linarith [inside.2])⟩
  exact (fallsTo_found positive unit).2

end

/-- Each member selected is worth on average what the population is, by either method. -/
theorem Averages.select (method : Resampling) (finite : ∀ w ∈ weights, w.IsReal ∨ w = .negInf)
    (positive : 0 < Exact.mass weights) {n : Nat} (some_there : n ≠ 0) (worth : Nat → ℝ≥0∞) :
    Averages (Particle.select method weights n : Expected laws (List Nat)) (Selects weights n worth)
      (n * weighted weights worth) := by
  cases method with
  | multinomial => exact .categorical positive n worth
  | systematic => exact .systematic finite positive some_there worth

end Expected

end ProbCore
