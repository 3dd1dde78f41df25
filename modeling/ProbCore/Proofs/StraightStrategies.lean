import ProbCore.Proofs.StraightFilter

/-! What the strategies that do not run a population side by side make of a program without
choices. A search finds its one execution, a chain never moves, and each attempt of a rejection
sampler ends with its value or with nothing. -/

namespace ProbCore

variable {σ κ D : Type} [Host (EStateM Failure σ) D Exact] [LawfulHost σ D Exact]
  {resume : Resume (EStateM Failure σ) κ D Exact} {entry : κ} {s : Store} {v : Value} {x : Exact}
  {xs : List Exact} {t : Trace κ D Exact} {key : Value.Key}

theorem Exact.sum_real (real : ∀ x ∈ xs, x.IsReal) : xs.sum.IsReal := by
  induction xs with
  | nil => exact ⟨0, Exact.real_zero.symm⟩
  | cons x xs ih =>
    obtain ⟨first, rest⟩ := List.forall_mem_cons.mp real
    rw [List.sum_cons]
    exact first.add (ih rest)

/-- Equal samples make a point. -/
theorem Marginal.ofSamples_point {vs : List Value} (known : v.key = .ok key) (itself : (key == key) = true)
    (some_there : vs ≠ []) (same : ∀ u ∈ vs, u = v) (diagnostics : List (String × Measure Exact)) :
    ofSamples vs none diagnostics = .ok ⟨[v], [0], none, vs, diagnostics⟩ := by
  refine ofLogWeights_point known itself ?_ ?_ ?_ same none vs diagnostics
  · simpa using some_there
  · intro w member
    obtain ⟨_, _, rfl⟩ := List.mem_map.mp member
    exact ⟨0, Exact.zero_eq⟩
  · simp

namespace Enumeration

variable {c : Config}

/-- The search has found nothing yet and has nothing else to explore. -/
structure Unfound (st : Search κ Exact) : Prop where
  alone : st.frontier.size = 0
  found : st.found = []
  count : st.count = 0
  score : st.score.IsReal

omit [LawfulHost σ D Exact] in
theorem explore_alone {st : Search κ Exact} (alone : st.frontier.size = 0) (steps fuel : Nat) :
    explore resume c steps (fuel + 1) st = pure st := by
  have exhausted : st.exhausted c = true := by simp [Search.exhausted, alone]
  rw [explore, if_pos exhausted]

theorem factor_concludes {st : Search κ Exact} {k : κ} {a : Address} (proper : x.Proper)
    (real : st.score.IsReal) :
    Concludes (fun reaction : Reaction (Search κ Exact) (Search κ Exact) =>
        (x.IsReal ∧ reaction = .deliver { st with score := st.score + x } .absent) ∨
          x = .negInf ∧ reaction = .finish { st with score := .negInf })
      (fun _ => False) fun _ => (handler : Handler (EStateM Failure σ) κ D Exact _ _).factor st s k a x := by
  obtain ⟨frontier, score, found, count⟩ := st
  obtain ⟨z, rfl⟩ := real
  obtain ⟨y, rfl⟩ | rfl := proper
  · exact .pure (.inl ⟨⟨y, rfl⟩, rfl⟩)
  · exact .pure (.inr ⟨rfl, rfl⟩)

theorem unfound_empty (traversal : Traversal) :
    Unfound (⟨.empty traversal, Score.zero, [], 0⟩ : Search κ Exact) := by
  refine ⟨?_, rfl, rfl, 0, Exact.zero_eq⟩
  cases traversal <;> rfl

/-- The one execution is found, with the sum of its scores. -/
theorem search_sum (goes : GoesOn resume v xs entry s) (real : ∀ x ∈ xs, x.IsReal) :
    Concludes (fun st => st.found = [(v, xs.sum)] ∧ st.count = 1) (fun _ => False)
      fun fuel => search resume fuel c entry s := by
  let kept (left : List Exact) (st : Search κ Exact) : Prop :=
    (∀ x ∈ left, x.IsReal) ∧ Unfound st ∧ st.score + left.sum = xs.sum
  unfold search
  apply Concludes.bind (.answers goes)
  intro step straight
  have driven : Concludes (fun st : Search κ Exact => st.frontier.size = 0 ∧ st.found = [(v, xs.sum)] ∧ st.count = 1)
      (fun _ => False) fun fuel => drive resume handler fuel ⟨.empty c.traversal, Score.zero, [], 0⟩ step := by
    refine straight.drive kept ?_ ?_ ⟨real, unfound_empty c.traversal, ?_⟩
    · intro x left st s k a ⟨real, unfound, total⟩
      obtain ⟨first, rest⟩ := List.forall_mem_cons.mp real
      refine (factor_concludes (.inl first) unfound.score).imp ?_ fun _ no => no
      intro reaction reacted
      obtain ⟨_, rfl⟩ | ⟨rfl, _⟩ := reacted
      · refine .inr ⟨_, rfl, rest, ?_, ?_⟩
        · exact ⟨unfound.alone, unfound.found, unfound.count, unfound.score.add first⟩
        · rw [← total, List.sum_cons, add_assoc]
      · exact (nomatch first)
    · intro st s ⟨_, unfound, total⟩
      rw [List.sum_nil, add_zero] at total
      refine .pure ⟨unfound.alone, ?_, ?_⟩
      · rw [unfound.found, total]
      · rw [unfound.count]
    · rw [Exact.zero_eq, zero_add]
  apply Concludes.bind driven
  intro st ⟨alone, found⟩
  exact Concludes.spend (.pure found) fun fuel => explore_alone alone _ fuel

/-- An impossible score ends the one execution, and nothing is found. -/
theorem search_hopeless (goes : GoesOn resume v xs entry s) (proper : ∀ x ∈ xs, x.Proper)
    (among : .negInf ∈ xs) :
    Concludes (fun st => st.count = 0) (fun _ => False) fun fuel => search resume fuel c entry s := by
  let kept (left : List Exact) (st : Search κ Exact) : Prop :=
    (∀ x ∈ left, x.Proper) ∧ .negInf ∈ left ∧ Unfound st
  unfold search
  apply Concludes.bind (.answers goes)
  intro step straight
  have driven : Concludes (fun st : Search κ Exact => st.frontier.size = 0 ∧ st.count = 0)
      (fun _ => False) fun fuel => drive resume handler fuel ⟨.empty c.traversal, Score.zero, [], 0⟩ step := by
    refine straight.drive kept ?_ ?_ ⟨proper, among, unfound_empty c.traversal⟩
    · intro x left st s k a ⟨proper, among, unfound⟩
      obtain ⟨first, rest⟩ := List.forall_mem_cons.mp proper
      refine (factor_concludes first unfound.score).imp ?_ fun _ no => no
      intro reaction reacted
      obtain ⟨⟨y, rfl⟩, rfl⟩ | ⟨_, rfl⟩ := reacted
      · refine .inr ⟨_, rfl, rest, by simpa using among, ?_⟩
        exact ⟨unfound.alone, unfound.found, unfound.count, unfound.score.add ⟨y, rfl⟩⟩
      · exact .inl ⟨_, rfl, unfound.alone, unfound.count⟩
    · intro st s ⟨_, among, _⟩
      exact (nomatch among)
  apply Concludes.bind driven
  intro st ⟨alone, count⟩
  exact Concludes.spend (.pure count) fun fuel => explore_alone alone _ fuel

theorem estimate_sum (goes : GoesOn resume v xs entry s) (real : ∀ x ∈ xs, x.IsReal)
    (known : v.key = .ok key) (itself : (key == key) = true) :
    Concludes (fun M => M.IsPoint v ∧ M.normalization = some xs.sum) (fun _ => False)
      fun fuel => estimate resume fuel c entry s := by
  refine Concludes.bind (search_sum goes real) ?_
  intro st ⟨found, count⟩
  simp only [found, count, Nat.one_ne_zero, beq_iff_eq, if_false, List.reverse_singleton, List.map_cons,
    List.map_nil]
  have weights : ∀ w ∈ [xs.sum], w.IsReal := by simpa using Exact.sum_real real
  have point := Marginal.ofLogWeights_point known itself (List.cons_ne_nil _ _) weights rfl
    (fun u member => List.mem_singleton.mp member) (some (Score.logSumExp [xs.sum])) []
    [("executions", .count 1)]
  exact Concludes.bind (.answers (Answers.note _)) fun _ _ => .answers (.lift point ⟨⟨rfl, rfl⟩, rfl⟩)

theorem estimate_hopeless (goes : GoesOn resume v xs entry s) (proper : ∀ x ∈ xs, x.Proper)
    (among : .negInf ∈ xs) :
    Concludes (fun _ => False) (fun e => e = .inference .nothingFound)
      fun fuel => estimate resume fuel c entry s := by
  refine Concludes.bind ((search_hopeless goes proper among).imp (fun _ holds => holds) fun _ no => no.elim) ?_
  intro st count
  simp only [count, beq_self_eq_true, if_true]
  exact .fail rfl

end Enumeration

namespace Rejection

variable [AnsweringHost σ D] {c : Config Exact}

omit [AnsweringHost σ D] in
/-- Each attempt accepts the value, accepts nothing, or fails at a score out of bounds. -/
theorem attempt_value (goes : GoesOn resume v xs entry s) (threshold : Exact) :
    Concludes (fun out => out = none ∨ out = some v) (fun _ => True)
      fun fuel => resume entry s .absent >>= drive resume (handler c threshold) fuel Score.zero := by
  apply Concludes.bind (.answers goes)
  intro step straight
  refine straight.drive (fun _ _ => True) ?_ ?_ trivial
  · intro x left score s k a _
    simp only [handler]
    split
    · split
      · exact .fail trivial
      · split
        · exact .pure (.inl ⟨none, rfl, .inl rfl⟩)
        · exact .pure (.inr ⟨_, rfl, trivial⟩)
    · exact .pure (.inr ⟨_, rfl, trivial⟩)
  · intro score s _
    simp only [handler]
    split
    · exact .pure (.inr rfl)
    · split
      · exact .fail trivial
      · split
        · exact .pure (.inr rfl)
        · exact .pure (.inl rfl)

omit [AnsweringHost σ D] in
/-- An attempt at an impossible score accepts nothing. -/
theorem attempt_hopeless (goes : GoesOn resume v xs entry s) (proper : ∀ x ∈ xs, x.Proper)
    (among : .negInf ∈ xs) (low : c.incremental = true → ∀ x ∈ xs, Score.less Score.zero x = false)
    {threshold : Exact} (uniform : threshold.IsReal ∨ threshold = .negInf) :
    Concludes (fun out => out = none) (fun _ => False)
      fun fuel => resume entry s .absent >>= drive resume (handler c threshold) fuel Score.zero := by
  apply Concludes.bind (.answers goes)
  intro step straight
  by_cases incremental : c.incremental = true
  · let kept (left : List Exact) (score : Exact) : Prop :=
      (∀ x ∈ left, x.Proper) ∧ (∀ x ∈ left, Score.less Score.zero x = false) ∧ .negInf ∈ left ∧ score.IsReal
    refine straight.drive kept ?_ ?_ ⟨proper, low incremental, among, 0, Exact.zero_eq⟩
    · intro x left score s k a held
      obtain ⟨proper, low, among, real⟩ := held
      obtain ⟨first, rest⟩ := List.forall_mem_cons.mp proper
      obtain ⟨below, others⟩ := List.forall_mem_cons.mp low
      simp only [handler, if_pos incremental, below, Bool.false_eq_true, if_false]
      obtain ⟨z, rfl⟩ := real
      obtain ⟨y, rfl⟩ | rfl := first
      · split
        · exact .pure (.inl ⟨none, rfl, rfl⟩)
        · exact .pure (.inr ⟨_, rfl, rest, others, by simpa using among, z + y, rfl⟩)
      · have under : Score.atMost (Exact.real z + .negInf) threshold = true := by
          obtain ⟨u, rfl⟩ | rfl := uniform
          · rfl
          · rfl
        rw [if_pos under]
        exact .pure (.inl ⟨none, rfl, rfl⟩)
    · intro score s held
      obtain ⟨_, _, among, _⟩ := held
      exact absurd among List.not_mem_nil
  · let kept (left : List Exact) (score : Exact) : Prop :=
      (∀ x ∈ left, x.Proper) ∧ (.negInf ∈ left ∧ score.IsReal ∨ score = .negInf)
    refine straight.drive kept ?_ ?_ ⟨proper, .inl ⟨among, 0, Exact.zero_eq⟩⟩
    · intro x left score s k a held
      obtain ⟨proper, stands⟩ := held
      obtain ⟨first, rest⟩ := List.forall_mem_cons.mp proper
      simp only [handler, if_neg incremental]
      refine .pure (.inr ⟨_, rfl, rest, ?_⟩)
      obtain ⟨among, z, rfl⟩ | rfl := stands
      · obtain ⟨y, rfl⟩ | rfl := first
        · exact .inl ⟨by simpa using among, z + y, rfl⟩
        · exact .inr rfl
      · obtain ⟨y, rfl⟩ | rfl := first
        · exact .inr rfl
        · exact .inr rfl
    · intro score s held
      obtain ⟨_, stands⟩ := held
      obtain ⟨among, _⟩ | rfl := stands
      · exact absurd among List.not_mem_nil
      · have bounded : Score.less c.bound.val .negInf = false := by cases c.bound.val <;> rfl
        have refused : Score.less threshold (.negInf - c.bound.val) = false := by
          cases c.bound.val <;> obtain ⟨u, rfl⟩ | rfl := uniform <;> rfl
        simp only [handler, if_neg incremental, bounded, refused, Bool.false_eq_true, if_false]
        exact .pure rfl

/-- The attempts collect nothing but the value. -/
theorem collect_value (goes : GoesOn resume v xs entry s) {remaining made count : Nat} {accepted : List Value}
    (same : ∀ u ∈ accepted, u = v) (long : accepted.length = count) :
    Concludes (fun out => (∀ u ∈ out.1, u = v) ∧ c.samples.val ≤ out.1.length) (fun _ => True)
      fun fuel => collect resume fuel c entry s remaining made accepted count := by
  induction remaining generalizing made accepted count with
  | zero =>
    simp only [collect]
    split
    next enough => exact .pure ⟨same, long ▸ enough⟩
    next => exact .fail trivial
  | succ remaining ih =>
    simp only [collect]
    split
    next enough => exact .pure ⟨same, long ▸ enough⟩
    next =>
      have attempts : Concludes (fun out => out = none ∨ out = some v) (fun _ => True)
          fun fuel => attempt resume fuel c entry s :=
        Concludes.bind (.answers AnsweringHost.logUniform_answers) fun threshold _ => attempt_value goes threshold
      apply Concludes.bind attempts
      intro out reached
      obtain rfl | rfl := reached
      · exact ih same long
      · exact ih (List.forall_mem_cons.mpr ⟨rfl, same⟩) (congrArg (· + 1) long)

theorem collect_hopeless (goes : GoesOn resume v xs entry s) (proper : ∀ x ∈ xs, x.Proper)
    (among : .negInf ∈ xs) (low : c.incremental = true → ∀ x ∈ xs, Score.less Score.zero x = false)
    (some_asked : 1 ≤ c.samples.val) {remaining made : Nat} :
    Concludes (fun _ => False)
      (fun e => e = .inference (.tooFewAccepted 0 c.samples.shown c.attempts.shown))
      fun fuel => collect resume fuel c entry s remaining made [] 0 := by
  have lacking : ¬ c.samples.val ≤ 0 := by omega
  induction remaining generalizing made with
  | zero =>
    simp only [collect, if_neg lacking]
    exact .fail rfl
  | succ remaining ih =>
    simp only [collect, if_neg lacking]
    have attempts : Concludes (fun out => out = none)
        (fun e => e = .inference (.tooFewAccepted 0 c.samples.shown c.attempts.shown))
        fun fuel => attempt resume fuel c entry s := by
      apply Concludes.bind (.answers AnsweringHost.logUniform_answers)
      intro threshold uniform
      exact (attempt_hopeless goes proper among low uniform).imp (fun _ holds => holds) fun _ no => no.elim
    apply Concludes.bind attempts
    intro out same
    subst same
    exact ih

theorem estimate_value (goes : GoesOn resume v xs entry s) (known : v.key = .ok key)
    (itself : (key == key) = true) (some_asked : 1 ≤ c.samples.val) :
    Concludes (fun M => M.IsPoint v) (fun _ => True) fun fuel => estimate resume fuel c entry s := by
  refine Concludes.bind (collect_value goes (List.forall_mem_nil _) rfl) ?_
  intro (accepted, made) ⟨same, enough⟩
  have some_there : accepted.reverse ≠ [] := by
    rw [← List.length_pos_iff, List.length_reverse]
    exact Nat.lt_of_lt_of_le some_asked enough
  have point := Marginal.ofSamples_point known itself some_there (by simpa using same)
  exact Concludes.bind (.answers (Answers.note _)) fun _ _ => .answers (.lift (point _) ⟨rfl, rfl⟩)

theorem estimate_hopeless (goes : GoesOn resume v xs entry s) (proper : ∀ x ∈ xs, x.Proper)
    (among : .negInf ∈ xs) (low : c.incremental = true → ∀ x ∈ xs, Score.less Score.zero x = false)
    (some_asked : 1 ≤ c.samples.val) :
    Concludes (fun _ => False) (fun e => ∃ fault, e = .inference fault)
      fun fuel => estimate resume fuel c entry s := by
  refine Concludes.bind ((collect_hopeless goes proper among low some_asked).imp (fun _ no => no) ?_) ?_
  · exact fun e same => ⟨_, same⟩
  · exact fun _ no => no.elim

end Rejection

namespace Kernel

variable {limit : Option Nat} {attempts : Given Nat} {good : Trace κ D Exact → Prop}

/-- A chain starts where the first execution ends, if that has a real score. -/
theorem findStart_found (some_asked : 1 ≤ attempts.val)
    (simulates : Concludes (fun out => ∃ u, out = some u ∧ u.score.IsReal ∧ good u) (fun _ => False)
      fun fuel => simulate resume fuel entry s limit) :
    Concludes good (fun _ => False) fun fuel => findStart resume fuel entry s limit attempts := by
  obtain ⟨remaining, first⟩ := Nat.exists_eq_add_of_le' some_asked
  simp only [findStart, first, findStart.go]
  apply Concludes.bind simulates
  intro out ⟨u, same, real, holds⟩
  subst same
  simp only [real.less, if_true]
  exact Concludes.bind (.answers (Answers.note _)) fun _ _ => .pure holds

theorem findStart_none (attempts : Given Nat)
    (simulates : Concludes (fun out => out = none) (fun _ => False) fun fuel => simulate resume fuel entry s limit) :
    Concludes (fun _ => False) (fun e => e = .inference (.noStart attempts.shown))
      fun fuel => findStart resume fuel entry s limit attempts := by
  have attempted (remaining number : Nat) : Concludes (fun _ => False)
      (fun e => e = .inference (.noStart attempts.shown))
      fun fuel => findStart.go resume fuel entry s limit attempts remaining number := by
    induction remaining generalizing number with
    | zero => exact .fail rfl
    | succ remaining ih =>
      refine Concludes.bind (simulates.imp (fun _ holds => holds) fun _ no => no.elim) ?_
      intro out same
      subst same
      exact ih (number + 1)
  exact attempted attempts.val 1

end Kernel

namespace Chain

variable {c : Config}

omit [LawfulHost σ D Exact] in
/-- A chain that cannot move records its value at every step that it records. -/
theorem walk_still (came : Came v t) (fuel remaining step accepted : Nat) (values : List Value) :
    walk resume fuel c remaining step t values accepted =
      pure (List.replicate ((List.range' step remaining).countP c.records) v ++ values, accepted) := by
  induction remaining generalizing step values with
  | zero => rfl
  | succ remaining ih =>
    have valued : (Kernel.exitValue t : EStateM Failure σ Value) = pure v := by
      rw [Kernel.exitValue, came.ending]
    rw [walk, Kernel.move_still came.choices, pure_bind, List.range'_succ, List.countP_cons]
    by_cases recorded : c.records step = true
    · simp only [recorded, if_true, valued, pure_bind, Bool.false_eq_true, if_false]
      rw [ih, List.replicate_succ', List.append_assoc]
      rfl
    · simp only [recorded, Bool.false_eq_true, if_false]
      exact ih (step + 1) values

theorem records_some (some_asked : 1 ≤ c.samples) (spaced : 1 ≤ c.lag) :
    0 < (List.range' 0 c.steps).countP c.records := by
  refine List.countP_pos_iff.mpr ⟨c.burn + c.lag - 1, ?_, ?_⟩
  · have long : 1 * c.lag ≤ c.samples * c.lag := Nat.mul_le_mul_right c.lag some_asked
    rw [List.mem_range'_1, Config.steps]
    omega
  · have full : c.burn + c.lag - 1 - c.burn + 1 = c.lag := by omega
    simp only [Config.records, full, Nat.mod_self, beq_self_eq_true, Bool.and_true, decide_eq_true_eq]
    omega

theorem estimate_value (goes : GoesOn resume v xs entry s) (real : ∀ x ∈ xs, x.IsReal)
    (known : v.key = .ok key) (itself : (key == key) = true) (some_asked : 1 ≤ c.samples)
    (spaced : 1 ≤ c.lag) (tries : 1 ≤ c.startAttempts.val) :
    Concludes (fun M => M.IsPoint v) (fun _ => False) fun fuel => estimate resume fuel c entry s := by
  have starts : Concludes (Came v) (fun _ => False)
      fun fuel => Kernel.findStart resume fuel entry s none c.startAttempts := by
    apply Kernel.findStart_found tries
    refine (Kernel.extend_whole (Rests.start goes) real).imp ?_ fun _ no => no
    intro out ⟨u, same, came⟩
    exact ⟨u, same, came.score, came⟩
  apply Concludes.bind starts
  intro t came
  simp only [walk_still came, pure_bind, List.append_nil, List.reverse_replicate]
  have some_there : List.replicate ((List.range' 0 c.steps).countP c.records) v ≠ [] := by
    rw [← List.length_pos_iff, List.length_replicate]
    exact records_some some_asked spaced
  have point := Marginal.ofSamples_point known itself some_there fun u member => List.eq_of_mem_replicate member
  split
  · exact Concludes.bind (.answers (Answers.note _)) fun _ _ => .answers (.lift (point _) ⟨rfl, rfl⟩)
  · exact .answers (.lift (point _) ⟨rfl, rfl⟩)

theorem estimate_hopeless (goes : GoesOn resume v xs entry s) (proper : ∀ x ∈ xs, x.Proper)
    (among : .negInf ∈ xs) :
    Concludes (fun _ => False) (fun e => ∃ fault, e = .inference fault)
      fun fuel => estimate resume fuel c entry s := by
  have fails := Kernel.findStart_none c.startAttempts
    (Kernel.extend_hopeless (Rests.start goes) proper among)
  exact Concludes.bind (fails.imp (fun _ no => no) fun e same => ⟨_, same⟩) fun _ no => no.elim

end Chain

end ProbCore
