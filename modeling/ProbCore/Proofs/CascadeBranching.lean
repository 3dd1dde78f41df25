import ProbCore.Proofs.Agreement
import ProbCore.Proofs.CascadeSchedule

/-! What a cascade makes of a particle that comes to a factor. It folds the particle's weight into
the mean of what came there before, and replaces the particle by children that weigh as much as it
does: a heavy one by equal shares of its weight, a light one by the mean, as often as makes up for
the difference. A particle is in its own mean, so it cannot be heavier than the mean by more than
the number of arrivals. -/

namespace ProbCore.Cascade

open MeasureTheory

/-- The factors that particles came to, first first, each with the log weight that came there. -/
abbrev History := List (Nat × ℝ)

/-- The log weights that came to one factor. -/
def cameTo (history : History) (j : Nat) : List ℝ := (history.filter (·.1 == j)).map (·.2)

/-- What a cascade remembers of its arrivals. -/
noncomputable def arrivalsOf (history : History) : Arrivals Exact :=
  history.foldl (fun arrivals e => (arrive arrivals e.1 (.real e.2)).2) []

/-- The logarithm of the mean of some weights, given by their logarithms. -/
noncomputable def logMean (weights : List ℝ) : ℝ :=
  Real.log ((weights.map Real.exp).sum / weights.length)

theorem cameTo_append (history : History) (j i : Nat) (w : ℝ) :
    cameTo (history ++ [(j, w)]) i = if j = i then cameTo history i ++ [w] else cameTo history i := by
  unfold cameTo
  rw [List.filter_append, List.map_append]
  split
  next same => simp [same]
  next apart => simp [apart]

theorem cameTo_last (history : History) (j : Nat) (w : ℝ) :
    cameTo (history ++ [(j, w)]) j = cameTo history j ++ [w] := by
  rw [cameTo_append, if_pos rfl]

theorem arrivalsOf_append (history : History) (j : Nat) (w : ℝ) :
    arrivalsOf (history ++ [(j, w)]) = (arrive (arrivalsOf history) j (.real w)).2 := by
  rw [arrivalsOf, List.foldl_append]
  rfl

theorem sum_exp_pos {weights : List ℝ} (some_there : weights ≠ []) : 0 < (weights.map Real.exp).sum := by
  refine List.sum_pos _ ?_ (by simpa using some_there)
  intro x member
  obtain ⟨w, _, rfl⟩ := List.mem_map.mp member
  exact Real.exp_pos w

theorem length_pos {weights : List ℝ} (some_there : weights ≠ []) : (0 : ℝ) < weights.length :=
  Nat.cast_pos.mpr (List.length_pos_iff.mpr some_there)

theorem exp_logMean {weights : List ℝ} (some_there : weights ≠ []) :
    Real.exp (logMean weights) = (weights.map Real.exp).sum / weights.length :=
  Real.exp_log (div_pos (sum_exp_pos some_there) (length_pos some_there))

/-- How many there are of some weights, and their mean. -/
noncomputable def entryOf (weights : List ℝ) : Option (Nat × Exact) :=
  if weights = [] then none else some (weights.length, .real (logMean weights))

/-- The running mean is the mean. -/
theorem runningMean_eq (weights : List ℝ) (w : ℝ) :
    runningMean (entryOf weights) (.real w) =
      ((weights ++ [w]).length, Exact.real (logMean (weights ++ [w]))) := by
  rw [List.length_append, List.length_singleton]
  by_cases none_there : weights = []
  · subst none_there
    rw [entryOf, if_pos rfl, runningMean]
    simp [logMean]
  · have total := sum_exp_pos none_there
    have count := length_pos none_there
    have taken_out : logMean weights + Real.log weights.length = Real.log (weights.map Real.exp).sum := by
      rw [logMean, Real.log_div total.ne' count.ne', sub_add_cancel]
    have some_more : ((weights.length : ℝ) + 1) ≠ 0 := by positivity
    have both : (weights.map Real.exp).sum + Real.exp w ≠ 0 := (add_pos total (Real.exp_pos w)).ne'
    rw [entryOf, if_neg none_there]
    dsimp only [runningMean]
    rw [Exact.logNat_eq (List.length_eq_zero_iff.not.mpr none_there), Exact.real_add, taken_out,
      Exact.logAddExp_real, Real.exp_log total, Exact.logNat_eq (Nat.succ_ne_zero _), Exact.real_sub,
      Nat.cast_succ, ← Real.log_div both some_more, logMean, List.map_append, List.sum_append,
      List.length_append]
    simp

theorem lookup_filter_ne {α β : Type} [BEq α] [LawfulBEq α] (entries : List (α × β)) {i j : α}
    (apart : i ≠ j) : (entries.filter (·.1 != j)).lookup i = entries.lookup i := by
  induction entries with
  | nil => rfl
  | cons entry rest ih =>
    obtain ⟨k, b⟩ := entry
    by_cases dropped : k = j
    · subst dropped
      have other : (i == k) = false := beq_false_of_ne apart
      rw [List.filter_cons_of_neg (by simp), List.lookup_cons, other, ih]
    · rw [List.filter_cons_of_pos (by simpa using dropped), List.lookup_cons, List.lookup_cons, ih]

/-- A cascade remembers of each factor how many particles came there and what they weigh on
average. -/
theorem lookup_arrivalsOf (history : History) (j : Nat) :
    (arrivalsOf history).lookup j = entryOf (cameTo history j) := by
  induction history using List.reverseRecOn generalizing j with
  | nil => rfl
  | append_singleton history e ih =>
    obtain ⟨i, w⟩ := e
    rw [arrivalsOf_append, arrive, ih i, runningMean_eq]
    dsimp only
    by_cases same : i = j
    · subst same
      have some_there : cameTo history i ++ [w] ≠ [] := by simp
      rw [List.lookup_cons_self, cameTo_last, entryOf, if_neg some_there]
    · have other : (j == i) = false := beq_false_of_ne (Ne.symm same)
      rw [List.lookup_cons, other, lookup_filter_ne _ (Ne.symm same), ih j, cameTo_append, if_neg same]

/-- The mean that an arriving particle is compared with takes it in. -/
theorem arrive_eq (history : History) (j : Nat) (w : ℝ) :
    arrive (arrivalsOf history) j (.real w) =
      (.real (logMean (cameTo (history ++ [(j, w)]) j)), arrivalsOf (history ++ [(j, w)])) := by
  refine Prod.ext ?_ (arrivalsOf_append history j w).symm
  rw [arrive, lookup_arrivalsOf, runningMean_eq, cameTo_last]

/-- No weight exceeds a mean that it belongs to by more than the number of weights. -/
theorem exp_sub_logMean_le {weights : List ℝ} {w : ℝ} (member : w ∈ weights) :
    Real.exp (w - logMean weights) ≤ weights.length := by
  have some_there := List.ne_nil_of_mem member
  have total := sum_exp_pos some_there
  have within : Real.exp w ≤ (weights.map Real.exp).sum := by
    refine List.single_le_sum (fun x inside => ?_) _ (List.mem_map_of_mem member)
    obtain ⟨y, _, rfl⟩ := List.mem_map.mp inside
    exact (Real.exp_pos y).le
  rw [Real.exp_sub, exp_logMean some_there, div_div_eq_mul_div, div_le_iff₀ total, mul_comm]
  exact mul_le_mul_of_nonneg_left within (length_pos some_there).le

/-- The logarithm of a uniform draw is below a log ratio as often as the ratio says. -/
theorem volume_below {r : ℝ} (light : r < 0) :
    volume {u ∈ Set.Ico (0 : ℝ) 1 | Score.less (Exact.ofMass u) (.real r) = true} =
      ENNReal.ofReal (Real.exp r) := by
  have below : {u ∈ Set.Ico (0 : ℝ) 1 | Score.less (Exact.ofMass u) (.real r) = true} =
      Set.Ico 0 (Real.exp r) := by
    ext u
    constructor
    · rintro ⟨⟨nonneg, _⟩, less⟩
      refine ⟨nonneg, ?_⟩
      rcases nonneg.eq_or_lt with rfl | positive
      · exact Real.exp_pos r
      · rw [Exact.ofMass_pos positive] at less
        exact (Real.log_lt_iff_lt_exp positive).mp (of_decide_eq_true less)
    · rintro ⟨nonneg, less⟩
      refine ⟨⟨nonneg, less.trans (Real.exp_lt_one_iff.mpr light)⟩, ?_⟩
      rcases nonneg.eq_or_lt with rfl | positive
      · rw [Exact.ofMass_zero]
        rfl
      · rw [Exact.ofMass_pos positive]
        exact decide_eq_true ((Real.log_lt_iff_lt_exp positive).mpr less)
  rw [below, Real.volume_Ico, sub_zero]

section

variable {m : Type → Type} {κ D : Type} [Monad m] [Host m D Exact] {c : Config} {p : Particle κ D Exact}
  {w mean : ℝ}

/-- The child that a light particle leaves, if the logarithm of a draw is low enough. -/
noncomputable def survivor (p : Particle κ D Exact) (mean w : ℝ) (drawn : Exact) : List (Particle κ D Exact) :=
  if Score.less drawn (.real (w - mean)) then [⟨p.trace, .real mean⟩] else []

theorem children_light (weight : p.weight = .real w) (light : w < mean) (buffered : Nat) :
    (children c p (.real mean) buffered : m _) = (do return survivor p mean w (← Host.logUniform)) := by
  have below : Score.less (Exact.real (w - mean)) Score.zero = true := by
    rw [Exact.zero_eq]
    exact decide_eq_true (sub_neg.mpr light)
  unfold children
  rw [weight, Exact.real_sub, if_pos below]
  rfl

/-- A particle that weighs the mean or more, cut into equal parts. -/
noncomputable def parts (p : Particle κ D Exact) (w : ℝ) (n : Nat) : List (Particle κ D Exact) :=
  List.replicate n ⟨p.trace, .real (w - Real.log n)⟩

theorem mass_parts (p : Particle κ D Exact) (w : ℝ) {n : Nat} (some_there : n ≠ 0) :
    Exact.mass ((parts p w n).map (·.weight)) = Real.exp w := by
  have positive : (0 : ℝ) < n := Nat.cast_pos.mpr (Nat.pos_of_ne_zero some_there)
  rw [parts, List.map_replicate, Exact.mass, List.map_replicate, List.sum_replicate, nsmul_eq_mul, Exact.weight,
    Real.exp_sub, Real.exp_log positive, mul_div_cancel₀ _ positive.ne']

theorem children_heavy [LawfulMonad m] (weight : p.weight = .real w) (heavy : mean ≤ w) {buffered n : Nat}
    (some_there : n ≠ 0) (counted : childCount c (.real (w - mean) : Exact) buffered = .ok n) :
    (children c p (.real mean) buffered : m _) = pure (parts p w n) := by
  have above : Score.less (Exact.real (w - mean)) Score.zero = false := by
    rw [Exact.zero_eq]
    exact decide_eq_false (sub_nonneg.mpr heavy).not_gt
  unfold children
  dsimp only
  rw [weight, Exact.real_sub, above, counted, Host.lift, pure_bind, Exact.logNat_eq some_there, Exact.real_sub]
  rfl

end

variable {σ κ D : Type} [Host (EStateM Failure σ) D Exact] [LawfulHost σ D Exact] {c : Config}
  {p q root : Particle κ D Exact} {pool : Pool κ D Exact} {resume : Resume (EStateM Failure σ) κ D Exact}
  {history : History} {fuel roots : Nat} {v v' : σ} {w : ℝ}

omit [LawfulHost σ D Exact] in
theorem process_arrived (came : run resume fuel p v = .ok (.arrived q) v') (weight : q.weight = .real w)
    (recorded : pool.arrivals = arrivalsOf history) :
    let later := history ++ [(q.trace.factors, w)]
    process resume fuel c p pool v = (do
      let born ← children c q (.real (logMean (cameTo later q.trace.factors))) pool.buffer.length
      return (Outcome.replaced born).into pool (arrivalsOf later) : EStateM Failure σ _) v' := by
  intro later
  have compared : arrive pool.arrivals q.trace.factors q.weight =
      (.real (logMean (cameTo later q.trace.factors)), arrivalsOf later) := by
    rw [recorded, weight]
    exact arrive_eq history q.trace.factors w
  change EStateM.bind (run resume fuel p) _ v = _
  unfold EStateM.bind
  rw [came]
  dsimp only
  rw [compared]
  rfl

omit [LawfulHost σ D Exact] in
theorem children_real (weight : q.weight = .real w) {mean : ℝ} {buffered : Nat} {born : List (Particle κ D Exact)}
    (yields : Yields (children c q (.real mean) buffered : EStateM Failure σ _) born) :
    ∀ child ∈ born, child.weight.IsReal := by
  by_cases light : w < mean
  · rw [children_light weight light] at yields
    obtain ⟨drawn, _, yields⟩ := yields.bind
    rw [yields.pure, survivor]
    split
    · simp [Exact.IsReal]
    · exact List.forall_mem_nil _
  · have heavy := not_lt.mp light
    have counted := childCount_eq (c := c) (sub_nonneg.mpr heavy) buffered
    have some_there := one_le_children (sub_nonneg.mpr heavy) (c.bufferSize - buffered)
    rw [children_heavy weight heavy (Nat.one_le_iff_ne_zero.mp some_there) counted] at yields
    rw [yields.pure]
    intro child member
    rw [List.eq_of_mem_replicate member]
    exact ⟨_, rfl⟩

/-- What the cascade remembers is the history of what arrived, and all that waits has a real weight. -/
def Recorded (pool : Pool κ D Exact) : Prop :=
  (∃ history, pool.arrivals = arrivalsOf history) ∧ ∀ p ∈ pool.buffer, p.weight.IsReal

/-- Particles come to their factors with real weights. -/
def KeepsReal (resume : Resume (EStateM Failure σ) κ D Exact) : Prop :=
  ∀ fuel p q, p.weight.IsReal → Yields (run resume fuel p) (.arrived q) → q.weight.IsReal

omit [LawfulHost σ D Exact] in
theorem Recorded.settled {o : Outcome κ D Exact} {arrivals : Arrivals Exact} (recorded : Recorded pool)
    (finite : KeepsReal resume) (real : p.weight.IsReal)
    (settles : Yields (settle resume fuel c p pool) (o, arrivals)) : Recorded (o.into pool arrivals) := by
  obtain ⟨fate, ran, yields⟩ := Yields.bind settles
  cases fate with
  | lost =>
    cases yields.pure
    exact recorded
  | finished q =>
    cases yields.pure
    exact recorded
  | arrived q =>
    obtain ⟨⟨history, remembered⟩, reals⟩ := recorded
    obtain ⟨w, weight⟩ := finite fuel p q real ran
    dsimp only at yields
    rw [remembered, weight, arrive_eq] at yields
    obtain ⟨born, drawn, yields⟩ := Yields.bind yields
    cases yields.pure
    refine ⟨⟨_, rfl⟩, fun child member => ?_⟩
    rcases List.mem_append.mp member with new | old
    · exact children_real weight drawn child (List.mem_reverse.mp new)
    · exact reals child old

omit [LawfulHost σ D Exact] in
theorem Scheduled.recorded {log : List (Handled κ D Exact)} (scheduled : Scheduled resume c root log pool roots)
    (finite : KeepsReal resume) (start : root.weight.IsReal) : Recorded pool := by
  induction scheduled with
  | start => exact ⟨⟨[], rfl⟩, nofun⟩
  | @next log pool roots fuel p buffer o arrivals before waiting settles ih =>
    obtain ⟨history, reals⟩ := ih
    rw [waiting] at reals
    obtain ⟨first, rest⟩ := List.forall_mem_cons.mp reals
    have left : Recorded { pool with buffer } := ⟨history, rest⟩
    exact left.settled finite first settles
  | root before empty few room settles ih => exact ih.settled finite start settles

omit [LawfulHost σ D Exact] in
/-- A cascade conserves weight where it branches. -/
theorem weight_conserved (came : run resume fuel p v = .ok (.arrived q) v') (weight : q.weight = .real w)
    (recorded : pool.arrivals = arrivalsOf history) :
    let later := history ++ [(q.trace.factors, w)]
    let count := (cameTo later q.trace.factors).length
    let mean := logMean (cameTo later q.trace.factors)
    (arrivalsOf later).lookup q.trace.factors = some (count, .real mean) ∧ w - mean ≤ Real.log count ∧
    (w < mean →
      process resume fuel c p pool v = (do
        let drawn ← Host.logUniform
        return (Outcome.replaced (survivor q mean w drawn)).into pool (arrivalsOf later) : EStateM Failure σ _) v' ∧
      volume {u ∈ Set.Ico (0 : ℝ) 1 | Score.less (Exact.ofMass u) (.real (w - mean)) = true} *
        ENNReal.ofReal (Real.exp mean) = ENNReal.ofReal (Real.exp w)) ∧
    (mean ≤ w →
      let n := min ⌊Real.exp (w - mean)⌋₊ (max 1 (c.bufferSize - pool.buffer.length))
      childCount c (q.weight - .real mean) pool.buffer.length = .ok n ∧
      (Score.logNat n : Exact) = .real (Real.log n) ∧
      1 ≤ n ∧ n ≤ min count (max 1 (c.bufferSize - pool.buffer.length)) ∧
      process resume fuel c p pool v = .ok ((Outcome.replaced (parts q w n)).into pool (arrivalsOf later)) v' ∧
      Exact.mass ((parts q w n).map (·.weight)) = Real.exp w) := by
  intro later count mean
  have itself : w ∈ cameTo later q.trace.factors := by
    rw [cameTo_last]
    exact List.mem_append_right _ List.mem_cons_self
  have some_there := List.ne_nil_of_mem itself
  have ratio : Real.exp (w - mean) ≤ count := exp_sub_logMean_le itself
  have processed := process_arrived (c := c) came weight recorded
  refine ⟨?_, (Real.le_log_iff_exp_le (length_pos some_there)).mpr ratio, fun light => ⟨?_, ?_⟩, fun heavy => ?_⟩
  · rw [lookup_arrivalsOf, entryOf, if_neg some_there]
  · rw [processed, children_light weight light, bind_assoc]
    rfl
  · rw [volume_below (sub_neg.mpr light), ← ENNReal.ofReal_mul (Real.exp_pos _).le, ← Real.exp_add,
      sub_add_cancel]
  · intro n
    have counted := childCount_eq (c := c) (sub_nonneg.mpr heavy) pool.buffer.length
    have few : ⌊Real.exp (w - mean)⌋₊ ≤ count := Nat.floor_le_of_le ratio
    have positive : 1 ≤ n := one_le_children (sub_nonneg.mpr heavy) _
    have some_child := Nat.one_le_iff_ne_zero.mp positive
    refine ⟨?_, Exact.logNat_eq some_child, positive, min_le_min_right _ few, ?_, mass_parts q w some_child⟩
    · rw [weight, Exact.real_sub]
      exact counted
    · rw [processed, children_heavy weight heavy some_child counted]
      rfl

/-- A particle of weight nine, after three of weight one, has the mean three: three children take its
place. -/
theorem ninefold_branches :
    let v : Coins := ⟨id⟩
    ∃ q : Particle Nat Unit Exact,
      process (twoResume (.real (Real.log 9)) (.real 0)) 2 ⟨.count 4, 5, 10⟩ (rootAt 0 .empty)
        ⟨[], [], 0, arrivalsOf [(1, 0), (1, 0), (1, 0)]⟩ v =
        .ok ⟨List.replicate 3 ⟨q.trace, .real (Real.log 3)⟩, [], 0,
          arrivalsOf [(1, 0), (1, 0), (1, 0), (1, Real.log 9)]⟩ v := by
  intro v
  have came : ∃ q, run (twoResume (.real (Real.log 9)) (.real 0)) 2 (rootAt 0 .empty) v = .ok (.arrived q) v ∧
      q.trace.factors = 1 ∧ q.weight = .real (Real.log 9) := by
    refine ⟨_, rfl, rfl, ?_⟩
    change Score.zero + (Score.zero + Exact.real (Real.log 9) - Score.zero - (Score.zero - Score.zero)) = _
    simp only [Exact.zero_eq, zero_add, sub_zero]
  obtain ⟨q, came, factors, weight⟩ := came
  have mean : logMean (cameTo ([(1, 0), (1, 0), (1, 0)] ++ [(1, Real.log 9)]) 1) = Real.log 3 := by
    change Real.log (([0, 0, 0, Real.log 9].map Real.exp).sum / ([0, 0, 0, Real.log 9] : List ℝ).length) = _
    norm_num [Real.exp_log]
  have excess : Real.log 9 - Real.log 3 = Real.log 3 := by
    rw [← Real.log_div (by norm_num) (by norm_num)]
    norm_num
  have heavy : Real.log 3 ≤ Real.log 9 := Real.log_le_log (by norm_num) (by norm_num)
  let pool : Pool Nat Unit Exact := ⟨[], [], 0, arrivalsOf [(1, 0), (1, 0), (1, 0)]⟩
  have recorded : pool.arrivals = arrivalsOf [(1, 0), (1, 0), (1, 0)] := rfl
  have conserved := weight_conserved (c := ⟨.count 4, 5, 10⟩) came weight recorded
  rw [factors] at conserved
  dsimp only at conserved
  rw [mean] at conserved
  obtain ⟨_, _, _, _, branched, _⟩ := conserved.2.2.2 heavy
  have three : min ⌊Real.exp (Real.log 9 - Real.log 3)⌋₊
      (max 1 (5 - ([] : List (Particle Nat Unit Exact)).length)) = 3 := by
    rw [excess, Real.exp_log (by norm_num)]
    norm_num
  refine ⟨q, ?_⟩
  rw [branched, three, parts, Nat.cast_ofNat, excess]
  rfl

end ProbCore.Cascade
