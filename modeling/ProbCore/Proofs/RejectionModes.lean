import Mathlib.Data.List.ReduceOption
import ProbCore.Proofs.Agreement
import ProbCore.Proofs.ScoreOrder
import ProbCore.Strategy.Rejection

/-! Rejection in one test at the end, or in one at every factor. Where no factor is above zero the
score never rises, so that the last test is passed exactly when all are. The thresholds and choices of
both modes are the same draws. In the default mode the result is made of the first attempts that are
accepted. -/

namespace ProbCore

variable {σ κ D R : Type} [Host (EStateM Failure σ) D R] [LawfulHost σ D R] [Score R]
  {resume : Resume (EStateM Failure σ) κ D R} {step : Step κ D R}

/-- From this step every execution comes to its final continuation, and absorbs nothing but numbers
that are not above zero. -/
inductive Settles (resume : Resume (EStateM Failure σ) κ D R) : Step κ D R → Prop where
  | exit {s : Store} {v : Value} : Settles resume (.exit s v)
  | choose {s : Store} {k : κ} {a : Address} {d : D}
      (draws : Answers (fun _ => True) (Host.draw d : EStateM Failure σ Value))
      (answers : ∀ v, CanReturn (Host.draw d : EStateM Failure σ Value) v →
        Answers (fun _ => True) (resume k s v))
      (goes : ∀ v step, CanReturn (Host.draw d : EStateM Failure σ Value) v → CanReturn (resume k s v) step →
        Settles resume step) :
      Settles resume (.sample s k a d)
  | absorb {s : Store} {k : κ} {a : Address} {x : R} (low : Score.Sunk x)
      (answers : Answers (fun _ => True) (resume k s .absent))
      (goes : ∀ step, CanReturn (resume k s .absent) step → Settles resume step) :
      Settles resume (.factor s k a x)

namespace Marginal

omit [Host (EStateM Failure σ) D R] [LawfulHost σ D R] [Score R]

/-- Groups of some values each, of one weight. -/
def Even (z : R) (gs : List (Group R)) : Prop := ∀ g ∈ gs, ∃ n, g.weights = List.replicate (n + 1) z

theorem Even.insert {z : R} {gs : List (Group R)} (even : Even z gs) (key : Value.Key) (v : Value) :
    Even z (Group.insert key v z gs) ∧ Group.insert key v z gs ≠ [] := by
  induction gs with
  | nil =>
    refine ⟨fun g member => ⟨0, ?_⟩, List.cons_ne_nil _ _⟩
    rw [List.mem_singleton.mp member]
    rfl
  | cons g rest ih =>
    obtain ⟨⟨n, first⟩, others⟩ := List.forall_mem_cons.mp even
    rw [Group.insert]
    split
    · refine ⟨List.forall_mem_cons.mpr ⟨⟨n + 1, ?_⟩, others⟩, List.cons_ne_nil _ _⟩
      dsimp only
      rw [first, ← List.replicate_succ']
    · exact ⟨List.forall_mem_cons.mpr ⟨⟨n, first⟩, (ih others).1⟩, List.cons_ne_nil _ _⟩

theorem groups_even {z : R} {vs : List Value} (keyed : ∀ v ∈ vs, ∃ k, v.key = .ok k) :
    ∃ gs, groups vs (vs.map fun _ => z) = .ok gs ∧ Even z gs ∧ (vs ≠ [] → gs ≠ []) := by
  have grouped {before : List (Group R)} (even : Even z before) :
      ∃ gs, (vs.zip (vs.map fun _ => z)).foldlM
          (fun gs (p : Value × R) => do return Group.insert (← p.1.key) p.1 p.2 gs) before = Except.ok gs ∧
        Even z gs ∧ (vs ≠ [] ∨ before ≠ [] → gs ≠ []) := by
    induction vs generalizing before with
    | nil => exact ⟨before, rfl, even, by simp⟩
    | cons v vs ih =>
      obtain ⟨⟨k, known⟩, rest⟩ := List.forall_mem_cons.mp keyed
      obtain ⟨inserted, some_there⟩ := even.insert k v
      obtain ⟨gs, built, even, filled⟩ := ih rest inserted
      refine ⟨gs, ?_, even, fun _ => filled (.inr some_there)⟩
      rw [List.map_cons, List.zip_cons_cons, List.foldlM_cons]
      simpa only [known, bind, Except.bind, pure, Except.pure] using built
  obtain ⟨gs, built, even, filled⟩ := grouped (show Even z [] from nofun)
  exact ⟨gs, built, even, fun some_there => filled (.inl some_there)⟩

/-- Equal weights have a finite total, in groups of any sizes. -/
def CountsEqually (R : Type) [Score R] : Prop :=
  ∀ ns : List Nat, ns ≠ [] →
    Score.isFinite (Score.logSumExp (ns.map fun n =>
      Score.logSumExp (List.replicate (n + 1) (Score.zero : R)))) = true

theorem ofSamples_succeeds [Score R] (counts : CountsEqually R) {vs : List Value} (some_there : vs ≠ [])
    (keyed : ∀ v ∈ vs, ∃ k, v.key = .ok k) (normalization : Option R) (diagnostics : List (String × Measure R)) :
    ∃ M, ofSamples vs normalization diagnostics = .ok M ∧ M.samples = vs := by
  obtain ⟨gs, built, even, filled⟩ := groups_even (z := (Score.zero : R)) keyed
  choose! sizes sized using even
  have totals : gs.map (fun g => Score.logSumExp g.weights) =
      (gs.map sizes).map fun n => Score.logSumExp (List.replicate (n + 1) (Score.zero : R)) := by
    rw [List.map_map]
    exact List.map_congr_left fun g member => congrArg Score.logSumExp (sized g member)
  have finite : Score.isFinite (Score.logSumExp (gs.map fun g => Score.logSumExp g.weights)) = true := by
    rw [totals]
    exact counts _ (by simpa using filled some_there)
  let total := Score.logSumExp (gs.map fun g => Score.logSumExp g.weights)
  refine ⟨⟨gs.map (·.value), (gs.map fun g => Score.logSumExp g.weights).map (· - total), normalization, vs,
    diagnostics⟩, ?_, rfl⟩
  unfold ofSamples ofLogWeights
  simp only [List.length_map, bne_self_eq_false, Bool.false_eq_true, if_false, built, bind, Except.bind, pure,
    Except.pure, finite, Bool.not_true]
  rfl

end Marginal

theorem Exact.countsEqually : Marginal.CountsEqually Exact := by
  intro ns some_there
  have each (n : Nat) : (Score.logSumExp (List.replicate (n + 1) (Score.zero : Exact))).IsReal := by
    have real : ∀ w ∈ List.replicate (n + 1) (Score.zero : Exact), w.IsReal := by
      intro w member
      rw [List.eq_of_mem_replicate member]
      exact ⟨0, Exact.zero_eq⟩
    exact ⟨_, Exact.logSumExp_eq (List.replicate_succ ▸ List.cons_ne_nil _ _) real⟩
  rw [Exact.logSumExp_eq (by simpa using some_there) (List.forall_mem_map.mpr fun n _ => each n)]
  rfl

namespace Rejection

variable {c : Config R} {t : R}

/-- The same settings with a test at every factor, or with one at the end. -/
def Config.inMode (c : Config R) (incremental : Bool) : Config R := { c with incremental }

section

variable {h : Handler (EStateM Failure σ) κ D R R (Option Value)} {score score' : R} {s : Store} {k : κ}
  {a : Address} {x : R} {d : D} {v : Value} {w w' w'' : σ}

omit [LawfulHost σ D R] [Score R] in
theorem drive_factor (reacts : h.factor score s k a x = pure (.deliver score' .absent))
    (resumed : resume k s .absent w = .ok step w') (fuel : Nat) :
    drive resume h (fuel + 1) score (.factor s k a x) w = drive resume h fuel score' step w' := by
  have reacted : h.factor score s k a x w = .ok (.deliver score' .absent) w := by
    rw [reacts]
    rfl
  exact (bind_of_ok reacted).trans (bind_of_ok resumed)

omit [LawfulHost σ D R] in
theorem drive_sample (drawn : (Host.draw d : EStateM Failure σ Value) w = .ok v w')
    (resumed : resume k s v w' = .ok step w'') (fuel : Nat) :
    drive resume (handler c t) (fuel + 1) score (.sample s k a d) w =
      drive resume (handler c t) fuel score step w'' := by
  have reacted : (handler c t : Handler (EStateM Failure σ) κ D R R (Option Value)).sample score s k a d w =
      .ok (.deliver score v) w' := bind_of_ok drawn
  exact (bind_of_ok reacted).trans (bind_of_ok resumed)

omit [LawfulHost σ D R] in
/-- At the end of an execution one test is made in the default mode, and none in the other. -/
theorem full_exit [OrderedScore R] (bound : c.bound.val = Score.zero) (sunk : Score.Sunk score) :
    (handler (c.inMode false) t : Handler (EStateM Failure σ) κ D R R (Option Value)).exit score s v =
      pure (if Score.less t score then some v else none) := by
  have within : ¬ Score.less c.bound.val score = true := by
    rw [bound, sunk.1]
    exact Bool.false_ne_true
  change (if Score.less c.bound.val score = true then _ else
    if Score.less t (score - c.bound.val) = true then pure (some v) else pure none) = _
  rw [if_neg within, bound, OrderedScore.less_sub_zero sunk]
  split
  · rfl
  · rfl

omit [LawfulHost σ D R] in
/-- A factor that is not above zero is tested at once in the incremental mode. -/
theorem early_factor (low : Score.Sunk x) :
    (handler (c.inMode true) t : Handler (EStateM Failure σ) κ D R R (Option Value)).factor score s k a x =
      if Score.atMost (score + x) t then pure (.finish none) else pure (.deliver (score + x) .absent) := by
  have allowed : ¬ Score.less Score.zero x = true := by
    rw [low.1]
    exact Bool.false_ne_true
  exact if_neg allowed

end

theorem one_more {holds : Nat → Prop} {n : Nat} (goes : ∀ fuel ≥ n, holds (fuel + 1)) :
    ∀ fuel ≥ n + 1, holds fuel := by
  intro fuel enough
  obtain ⟨fuel, rfl⟩ := Nat.exists_eq_add_of_le' (Nat.le_trans (Nat.le_add_left 1 n) enough)
  exact goes fuel (Nat.le_of_succ_le_succ enough)

/-- From this state both modes come to the same outcome, and nothing comes of an execution that is
at or below its threshold. -/
def ModesAgree (resume : Resume (EStateM Failure σ) κ D R) (c : Config R) (t score : R) (step : Step κ D R)
    (w : σ) : Prop :=
  ∃ n o w₁, LawfulHost.ready w₁ ∧
    (∀ fuel ≥ n, drive resume (handler (c.inMode false) t) fuel score step w = .ok o w₁) ∧
    (¬ Score.less t score = true → o = none) ∧
    (Score.less t score = true → ∃ w₂, LawfulHost.ready w₂ ∧
      ∀ fuel ≥ n, drive resume (handler (c.inMode true) t) fuel score step w = .ok o w₂)

/-- An execution is accepted in one test exactly when it is accepted in many. -/
theorem modes_agree [OrderedScore R] (bound : c.bound.val = Score.zero) (number : Score.isNaN t = false)
    (settles : Settles resume step) {score : R} (sunk : Score.Sunk score) {w : σ} (ready : LawfulHost.ready w) :
    ModesAgree resume c t score step w := by
  induction settles generalizing score w with
  | @exit s v =>
    refine ⟨1, if Score.less t score then some v else none, w, ready, one_more fun fuel _ => ?_, fun below => ?_,
      fun above => ⟨w, ready, one_more fun fuel _ => ?_⟩⟩
    · exact congrFun (full_exit bound sunk) w
    · exact if_neg below
    · rw [if_pos above]
      rfl
  | @choose s k a d draws answers goes ih =>
    obtain ⟨v, middle, drawn, ready', _⟩ := draws w ready
    have comes : CanReturn (Host.draw d : EStateM Failure σ Value) v := ⟨w, middle, ready, drawn⟩
    obtain ⟨step, later, resumed, ready'', _⟩ := answers v comes middle ready'
    obtain ⟨n, o, w₁, left, full, none_below, early⟩ :=
      ih v step comes ⟨middle, later, ready', resumed⟩ sunk ready''
    refine ⟨n + 1, o, w₁, left, one_more fun fuel enough => ?_, none_below, fun above => ?_⟩
    · exact (drive_sample drawn resumed fuel).trans (full fuel enough)
    · obtain ⟨w₂, right, early⟩ := early above
      exact ⟨w₂, right, one_more fun fuel enough => (drive_sample drawn resumed fuel).trans (early fuel enough)⟩
  | @absorb s k a x low answers goes ih =>
    obtain ⟨step, later, resumed, ready', _⟩ := answers w ready
    have lower := LawfulScore.sunk_add sunk low
    obtain ⟨n, o, w₁, left, full, none_below, early⟩ := ih step ⟨w, later, ready, resumed⟩ lower ready'
    have tested : (handler (c.inMode true) t : Handler (EStateM Failure σ) κ D R R (Option Value)).factor
        score s k a x =
        if Score.atMost (score + x) t then pure (.finish none) else pure (.deliver (score + x) .absent) :=
      early_factor low
    refine ⟨n + 1, o, w₁, left, one_more fun fuel enough => ?_,
      fun below => none_below fun above => below (OrderedScore.less_of_less_add sunk low above), fun _ => ?_⟩
    · exact (drive_factor rfl resumed fuel).trans (full fuel enough)
    · by_cases passes : Score.less t (score + x) = true
      · obtain ⟨w₂, right, early⟩ := early passes
        rw [if_neg fun fails => (OrderedScore.not_less_iff number lower.2).mpr fails passes] at tested
        exact ⟨w₂, right, one_more fun fuel enough => (drive_factor tested resumed fuel).trans (early fuel enough)⟩
      · rw [if_pos ((OrderedScore.not_less_iff number lower.2).mp passes)] at tested
        rw [none_below passes]
        refine ⟨w, ready, one_more fun fuel _ => ?_⟩
        have finished : (handler (c.inMode true) t : Handler (EStateM Failure σ) κ D R R (Option Value)).factor
            score s k a x w = .ok (.finish none) w := congrFun tested w
        exact bind_of_ok finished

variable {entry : κ} {s : Store}

/-- The logarithm of a uniform number below one is a number below zero. -/
def DrawsBelowZero (σ : Type) {D R : outParam Type} [Host (EStateM Failure σ) D R] [LawfulHost σ D R] [Score R] :
    Prop :=
  Answers (fun t => Score.less t Score.zero = true) (Host.logUniform : EStateM Failure σ R)

theorem attempts_agree [OrderedScore R] (bound : c.bound.val = Score.zero) (below : DrawsBelowZero σ)
    (settles : Answers (Settles resume) (resume entry s .absent)) {w : σ} (ready : LawfulHost.ready w) :
    ∃ n o w₁ w₂, LawfulHost.ready w₁ ∧ LawfulHost.ready w₂ ∧ ∀ fuel ≥ n,
      attempt resume fuel (c.inMode false) entry s w = .ok o w₁ ∧
        attempt resume fuel (c.inMode true) entry s w = .ok o w₂ := by
  obtain ⟨t, middle, drawn, ready', above⟩ := below w ready
  obtain ⟨step, later, resumed, ready'', goes⟩ := settles middle ready'
  obtain ⟨n, o, w₁, left, full, _, early⟩ :=
    modes_agree (c := c) bound (OrderedScore.less_iff.mp above).1 goes LawfulScore.zero_sunk ready''
  obtain ⟨w₂, right, early⟩ := early above
  refine ⟨n, o, w₁, w₂, left, right, fun fuel enough => ?_⟩
  have begins (mode : Bool) : attempt resume fuel (c.inMode mode) entry s w =
      drive resume (handler (c.inMode mode) t) fuel Score.zero step later :=
    (bind_of_ok drawn).trans (bind_of_ok resumed)
  exact ⟨(begins false).trans (full fuel enough), (begins true).trans (early fuel enough)⟩

/-- So many attempts, one after the other. -/
def attempts (resume : Resume (EStateM Failure σ) κ D R) (fuel : Nat) (c : Config R) (entry : κ) (s : Store) :
    Nat → EStateM Failure σ (List (Option Value))
  | 0 => pure []
  | n + 1 => do
    let o ← attempt resume fuel c entry s
    return o :: (← attempts resume fuel c entry s n)

/-- How many attempts it takes until so many are accepted. -/
def spent {α : Type} : List (Option α) → Nat → Nat
  | _, 0 => 0
  | [], _ + 1 => 0
  | some _ :: os, k + 1 => spent os k + 1
  | none :: os, k + 1 => spent os (k + 1) + 1

theorem spent_zero {α : Type} (os : List (Option α)) : spent os 0 = 0 := by
  cases os <;> rfl

/-- What is collected in so many attempts: the first that are accepted, or too few. -/
def collected (c : Config R) (made : Nat) (accepted : List Value) (count : Nat) (os : List (Option Value)) :
    Except Failure (List Value × Nat) :=
  if count + os.reduceOption.length < c.samples.val then
    .error (.inference (.tooFewAccepted (count + os.reduceOption.length) c.samples.shown c.attempts.shown))
  else
    .ok ((os.reduceOption.take (c.samples.val - count)).reverse ++ accepted,
      made + spent os (c.samples.val - count))

omit [Score R] in
theorem collected_enough {made count : Nat} {accepted : List Value} (enough : c.samples.val ≤ count)
    (os : List (Option Value)) : collected c made accepted count os = .ok (accepted, made) := by
  have none_more : c.samples.val - count = 0 := by omega
  rw [collected, if_neg (by omega), none_more, spent_zero]
  rfl

omit [Score R] in
theorem collected_some {made count : Nat} {accepted : List Value} (few : count < c.samples.val) (v : Value)
    (os : List (Option Value)) :
    collected c made accepted count (some v :: os) = collected c (made + 1) (v :: accepted) (count + 1) os := by
  obtain ⟨k, more⟩ : ∃ k, c.samples.val - count = k + 1 := ⟨_, (Nat.succ_pred (by omega)).symm⟩
  have fewer : c.samples.val - (count + 1) = k := by omega
  rw [collected, collected, List.reduceOption_cons_of_some, List.length_cons, more, fewer, spent,
    List.take_succ_cons, Nat.add_right_comm made, Nat.add_right_comm count, List.reverse_cons, List.append_assoc]
  rfl

omit [Score R] in
theorem collected_none {made count : Nat} {accepted : List Value} (few : count < c.samples.val)
    (os : List (Option Value)) :
    collected c made accepted count (none :: os) = collected c (made + 1) accepted count os := by
  obtain ⟨k, more⟩ : ∃ k, c.samples.val - count = k + 1 := ⟨_, (Nat.succ_pred (by omega)).symm⟩
  rw [collected, collected, List.reduceOption_cons_of_none, more, spent, Nat.add_right_comm made, ← Nat.add_assoc]

/-- A state after a result or a failure. -/
def outcomeAt {α : Type} (w : σ) : Except Failure α → EStateM.Result Failure σ α
  | .ok a => .ok a w
  | .error e => .error e w

omit [Score R] in
theorem lift_outcome {α : Type} (r : Except Failure α) (w : σ) :
    (Host.lift r : EStateM Failure σ α) w = outcomeAt w r := by
  cases r with
  | ok a => rfl
  | error e => exact congrFun (LawfulHost.fail_eq e) w

/-- Attempts that always come to an outcome are collected as far as they are needed. -/
theorem collect_attempts (concludes : ∀ w, LawfulHost.ready w → ∃ n o w', LawfulHost.ready w' ∧
      ∀ fuel ≥ n, attempt resume fuel c entry s w = .ok o w')
    (remaining : Nat) {w : σ} (ready : LawfulHost.ready w) :
    ∃ n os w₁, LawfulHost.ready w₁ ∧ os.length = remaining ∧
      (∀ fuel ≥ n, attempts resume fuel c entry s remaining w = .ok os w₁) ∧
      ∀ made accepted count, ∃ w₂, LawfulHost.ready w₂ ∧ ∀ fuel ≥ n,
        collect resume fuel c entry s remaining made accepted count w =
          outcomeAt w₂ (collected c made accepted count os) := by
  induction remaining generalizing w with
  | zero =>
    refine ⟨0, [], w, ready, rfl, fun _ _ => rfl, fun made accepted count => ⟨w, ready, fun fuel _ => ?_⟩⟩
    by_cases enough : c.samples.val ≤ count
    · rw [collect, if_pos enough, collected_enough enough]
      rfl
    · have few : count + ([] : List (Option Value)).reduceOption.length < c.samples.val := Nat.lt_of_not_le enough
      rw [collect, if_neg enough, collected, if_pos few]
      exact congrFun (LawfulHost.fail_eq _) w
  | succ remaining ih =>
    obtain ⟨n, o, middle, ready', attempted⟩ := concludes w ready
    obtain ⟨m, os, w₁, left, long, others, collects⟩ := ih ready'
    refine ⟨max n m, o :: os, w₁, left, congrArg (· + 1) long, fun fuel enough => ?_, fun made accepted count => ?_⟩
    · have first := attempted fuel (le_of_max_le_left enough)
      have rest := others fuel (le_of_max_le_right enough)
      exact (bind_of_ok first).trans (bind_of_ok rest)
    · by_cases enough : c.samples.val ≤ count
      · refine ⟨w, ready, fun fuel _ => ?_⟩
        rw [collect, if_pos enough, collected_enough enough]
        rfl
      have few := Nat.lt_of_not_le enough
      cases o with
      | none =>
        obtain ⟨w₂, right, collects⟩ := collects (made + 1) accepted count
        refine ⟨w₂, right, fun fuel more => ?_⟩
        rw [collected_none few, ← collects fuel (le_of_max_le_right more), collect, if_neg enough]
        exact bind_of_ok (attempted fuel (le_of_max_le_left more))
      | some v =>
        obtain ⟨w₂, right, collects⟩ := collects (made + 1) (v :: accepted) (count + 1)
        refine ⟨w₂, right, fun fuel more => ?_⟩
        rw [collected_some few, ← collects fuel (le_of_max_le_right more), collect, if_neg enough]
        exact bind_of_ok (attempted fuel (le_of_max_le_left more))

/-- What is reported beside a marginal that so many attempts were made for. -/
def report (c : Config R) (made : Nat) : List (String × Measure R) :=
  [("attempts", .count made), ("acceptance_rate", .rate (Score.ofNat c.samples.val / Score.ofNat made))]

/-- Rejection accepts an attempt in one test at its end exactly when it accepts it in a test at every
factor, and with the same value. In the default mode it fails exactly when too few of the attempts
that it may make are accepted; otherwise the first that are accepted, in order, are its samples. -/
theorem rejection_modes [OrderedScore R] (bound : c.bound.val = Score.zero) (some_asked : 1 ≤ c.samples.val)
    (below : DrawsBelowZero σ) (counts : Marginal.CountsEqually R)
    (settles : Answers (Settles resume) (resume entry s .absent)) :
    (∀ w, LawfulHost.ready w → ∃ n o w₁ w₂, ∀ fuel ≥ n,
      attempt resume fuel (c.inMode false) entry s w = .ok o w₁ ∧
        attempt resume fuel (c.inMode true) entry s w = .ok o w₂) ∧
    ∀ w, LawfulHost.ready w → ∃ n os w₁ w₂, os.length = c.attempts.val ∧
      (∀ fuel ≥ n, attempts resume fuel (c.inMode false) entry s c.attempts.val w = .ok os w₁) ∧
      let accepted := os.reduceOption
      let firsts := accepted.take c.samples.val
      (accepted.length < c.samples.val → ∀ fuel ≥ n, estimate resume fuel (c.inMode false) entry s w =
        .error (.inference (.tooFewAccepted accepted.length c.samples.shown c.attempts.shown)) w₂) ∧
      (c.samples.val ≤ accepted.length →
        (∀ fuel ≥ n, estimate resume fuel (c.inMode false) entry s w =
          outcomeAt w₂ (Marginal.ofSamples firsts none (report c (spent os c.samples.val)))) ∧
        ((∀ v ∈ firsts, ∃ k, v.key = .ok k) →
          ∃ M, (∀ fuel ≥ n, estimate resume fuel (c.inMode false) entry s w = .ok M w₂) ∧ M.samples = firsts)) := by
  have agree {w : σ} (ready : LawfulHost.ready w) := attempts_agree (c := c) bound below settles ready
  refine ⟨fun w ready => ?_, fun w ready => ?_⟩
  · obtain ⟨n, o, w₁, w₂, _, _, same⟩ := agree ready
    exact ⟨n, o, w₁, w₂, same⟩
  · have concludes : ∀ w, LawfulHost.ready w → ∃ n o w', LawfulHost.ready w' ∧
        ∀ fuel ≥ n, attempt resume fuel (c.inMode false) entry s w = .ok o w' := by
      intro w ready
      obtain ⟨n, o, w₁, _, left, _, same⟩ := agree ready
      exact ⟨n, o, w₁, left, fun fuel enough => (same fuel enough).1⟩
    obtain ⟨n, os, w₁, _, long, made, collects⟩ := collect_attempts concludes c.attempts.val ready
    obtain ⟨w₂, ready₂, collects⟩ := collects 0 [] 0
    have known : collected (c.inMode false) 0 [] 0 os =
        if os.reduceOption.length < c.samples.val then
          .error (.inference (.tooFewAccepted os.reduceOption.length c.samples.shown c.attempts.shown))
        else .ok ((os.reduceOption.take c.samples.val).reverse, spent os c.samples.val) := by
      simp only [collected, Config.inMode, Nat.zero_add, Nat.sub_zero, List.append_nil]
    rw [known] at collects
    by_cases few : os.reduceOption.length < c.samples.val
    · rw [if_pos few] at collects
      refine ⟨n, os, w₁, w₂, long, made, fun _ fuel enough => ?_, fun enough => absurd few (Nat.not_lt.mpr enough)⟩
      exact bind_of_error (collects fuel enough)
    · rw [if_neg few] at collects
      obtain ⟨w₃, noted, _⟩ :=
        LawfulHost.note_ready (D := D) (.rejected c.samples.val (spent os c.samples.val)) ready₂
      have estimated : ∀ fuel ≥ n, estimate resume fuel (c.inMode false) entry s w =
          outcomeAt w₃ (Marginal.ofSamples (os.reduceOption.take c.samples.val) none
            (report c (spent os c.samples.val))) := by
        intro fuel enough
        refine (bind_of_ok (collects fuel enough)).trans ((bind_of_ok noted).trans ?_)
        rw [List.reverse_reverse]
        exact lift_outcome _ w₃
      refine ⟨n, os, w₁, w₃, long, made, fun less => absurd less few, fun enough => ⟨estimated, fun keyed => ?_⟩⟩
      have some_accepted : os.reduceOption.take c.samples.val ≠ [] := by
        rw [← List.length_pos_iff, List.length_take]
        omega
      obtain ⟨M, built, samples⟩ := Marginal.ofSamples_succeeds counts some_accepted keyed none
        (report c (spent os c.samples.val))
      refine ⟨M, fun fuel more => ?_, samples⟩
      rw [estimated fuel more, built]
      rfl

section

open ProbCore.Cascade (Coins plain_answers coin_answers unsorted endsUnsorted unsortedResume)

/-- A coin is tossed; tails cost a factor, and heads none. -/
def tailsCost : PlainProgram Nat Unit Exact where
  entry := 0
  next
    | 0, s, _ => .ok (.sample s 1 .root ())
    | 1, s, .bool false => .ok (.factor s 2 .root (.real (-1)))
    | 1, s, v => .ok (.exit s v)
    | _, s, _ => .ok (.exit s (.bool false))

noncomputable abbrev costResume : Resume (EStateM Failure Coins) Nat Unit Exact := tailsCost.resume

theorem coins_below : DrawsBelowZero Coins := by
  refine Endless.next_answers.bind fun n _ _ => .pure ?_
  have positive : (0 : ℝ) < (n + 1) / (n + 2) := by positivity
  have less_than_one : ((n : ℝ) + 1) / (n + 2) < 1 := (div_lt_one (by positivity)).mpr (by linarith)
  rw [Exact.zero_eq]
  exact decide_eq_true (Real.log_neg positive less_than_one)

theorem tailsCost_settles : Answers (Settles costResume) (costResume 0 .empty .absent) := by
  have low : Score.Sunk (Exact.real (-1)) := by
    rw [Score.Sunk, Exact.zero_eq]
    exact ⟨decide_eq_false (by norm_num), rfl⟩
  have tails : Settles costResume (.factor .empty 2 .root (.real (-1))) :=
    .absorb low (plain_answers rfl trivial) fun step returned => (plain_answers rfl .exit).holds returned
  have goes (v : Value) (drawn : CanReturn (Host.draw () : EStateM Failure Coins Value) v) :
      Answers (Settles costResume) (costResume 1 .empty v) := by
    rcases coin_answers.holds drawn with rfl | rfl
    · exact plain_answers rfl tails
    · exact plain_answers rfl .exit
  exact plain_answers rfl (.choose (coin_answers.imp fun _ _ _ => trivial)
    (fun v drawn => (goes v drawn).imp fun _ _ _ => trivial)
    fun v step drawn returned => (goes v drawn).holds returned)

/-- Two samples from at most five attempts. -/
theorem tailsCost_modes :
    let c : Config Exact := ⟨.count 2, ⟨Score.zero, .int 0⟩, false, .count 5⟩
    (∀ w : Coins, ∃ n o w₁ w₂, ∀ fuel ≥ n,
      attempt costResume fuel c 0 .empty w = .ok o w₁ ∧
        attempt costResume fuel (c.inMode true) 0 .empty w = .ok o w₂) ∧
    ∀ w : Coins, ∃ n os w₁, os.length = 5 ∧ ∀ fuel ≥ n, attempts costResume fuel c 0 .empty 5 w = .ok os w₁ := by
  intro c
  obtain ⟨agree, made⟩ := rejection_modes (c := c) rfl (by decide) coins_below Exact.countsEqually tailsCost_settles
  refine ⟨fun w => agree w trivial, fun w => ?_⟩
  obtain ⟨n, os, w₁, _, long, made, _⟩ := made w trivial
  exact ⟨n, os, w₁, long, made⟩

/-- The one attempt at a value that has no key is accepted, and the estimate fails. -/
theorem endsUnsorted_accepted :
    Answers (Settles unsortedResume) (unsortedResume () .empty .absent) ∧
    ∀ w : Coins, ∃ w', ∀ fuel ≥ 1, let c : Config Exact := ⟨.count 1, ⟨Score.zero, .int 0⟩, false, .count 1⟩
      attempts unsortedResume fuel c () .empty 1 w = .ok [some unsorted] w' ∧
        estimate unsortedResume fuel c () .empty w = .error .illTyped w' := by
  refine ⟨plain_answers (P := endsUnsorted) rfl .exit, fun w => ?_⟩
  obtain ⟨t, w', drawn, _, below⟩ := coins_below w trivial
  refine ⟨w', one_more fun fuel _ => ?_⟩
  intro c
  have attempted : attempt unsortedResume (fuel + 1) c () .empty w = .ok (some unsorted) w' := by
    have tested := full_exit (σ := Coins) (κ := Unit) (c := c) (t := t) (s := .empty) (v := unsorted) rfl
      LawfulScore.zero_sunk
    rw [if_pos below] at tested
    exact (bind_of_ok drawn).trans (congrFun tested w')
  refine ⟨(bind_of_ok attempted).trans rfl, ?_⟩
  have collects : collect unsortedResume (fuel + 1) c () .empty 1 0 [] 0 w = .ok ([unsorted], 1) w' :=
    (bind_of_ok attempted).trans rfl
  exact (bind_of_ok collects).trans rfl

end

end Rejection

end ProbCore
