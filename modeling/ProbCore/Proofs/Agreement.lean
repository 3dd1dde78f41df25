import ProbCore.Proofs.StraightPopulations

/-! The strategies agree about programs without choices. Each that returns puts all mass on the
value of the program, and those that estimate a mass find the sum of the scores that it absorbs.
If one of these is impossible, they all fail. -/

namespace ProbCore

/-- A value that is grouped with its like. -/
def Value.Groups (v : Value) : Prop := ∃ key, v.key = .ok key ∧ (key == key) = true

namespace Strategy

/-- A chain makes at least one attempt to start. -/
def Tries {R : Type} : Strategy R → Prop
  | mcmc c => 1 ≤ c.startAttempts.val
  | pmcmc c => 1 ≤ c.startAttempts.val
  | _ => True

/-- A strategy that makes as many executions as it needs, if each of them ends with some mass. -/
def Returns {R : Type} : Strategy R → Prop
  | rejection _ => False
  | asyncpf c => c.particles.val ≤ c.mostRoots
  | _ => True

/-- A strategy that tests every single factor. -/
def Incremental {R : Type} : Strategy R → Prop
  | rejection c => c.incremental = true
  | _ => False

/-- What a strategy tells of a program: the value; where it estimates a mass, the sum of the scores; and a
cascade that it started one root for each particle. -/
def Tells (st : Strategy Exact) (v : Value) (xs : List Exact) (M : Marginal Value Exact) : Prop :=
  M.IsPoint v ∧
    match st with
    | enumerate _ | smc _ => M.normalization = some xs.sum
    | asyncpf c => M.normalization = some xs.sum ∧ M.diagnostics.lookup "roots" = some (.count c.particles.val)
    | rejection _ | mcmc _ | pmcmc _ => True

end Strategy

section

variable {σ κ D : Type} [Host (EStateM Failure σ) D Exact] [LawfulHost σ D Exact] [AnsweringHost σ D]
  {resume : Resume (EStateM Failure σ) κ D Exact} {entry : κ} {s : Store} {v : Value} {xs : List Exact}

/-- A program that absorbs these scores and no others ends with its value under every strategy.
If all scores are real, a strategy that returns answers with this value, and only rejection and a
cascade of too few roots may fail to return. At an impossible score every strategy fails, for want
of mass. -/
theorem strategies_agree (goes : GoesOn resume v xs entry s) {st : Strategy Exact} (accepted : st.Accepted)
    (tries : st.Tries) :
    ((∀ x ∈ xs, x.IsReal) → v.Groups →
      Concludes (st.Tells v xs) (fun _ => ¬ st.Returns) fun fuel => st.estimate resume fuel entry s) ∧
    (.negInf ∈ xs → (∀ x ∈ xs, x.Proper) →
      (st.Incremental → ∀ x ∈ xs, Score.less Score.zero x = false) →
      Concludes (fun _ => False) (fun e => e = .degenerate ∨ ∃ fault, e = .inference fault)
        fun fuel => st.estimate resume fuel entry s) := by
  constructor
  · intro real ⟨key, known, itself⟩
    cases st with
    | enumerate c => exact (Enumeration.estimate_sum goes real known itself).imp (fun _ told => told) fun _ no => no.elim
    | rejection c =>
      refine (Rejection.estimate_value goes known itself accepted.1).imp ?_ fun _ _ no => no
      exact fun _ point => ⟨point, trivial⟩
    | mcmc c =>
      refine (Chain.estimate_value goes real known itself accepted.1 accepted.2 tries).imp ?_ fun _ no => no.elim
      exact fun _ point => ⟨point, trivial⟩
    | smc c =>
      exact (Filter.estimate_sum goes real known itself accepted).imp (fun _ told => told) fun _ no => no.elim
    | pmcmc c =>
      refine (OpeningChain.estimate_value goes real known itself accepted.1 accepted.2 tries).imp ?_ fun _ no => no.elim
      exact fun _ point => ⟨point, trivial⟩
    | asyncpf c =>
      refine (Cascade.estimate_sum goes real known itself accepted.1 accepted.2).imp (fun _ told => told) ?_
      exact fun _ few => Nat.not_le_of_lt few
  · intro among proper low
    cases st with
    | enumerate c =>
      exact (Enumeration.estimate_hopeless goes proper among).imp (fun _ no => no) fun _ same => .inr ⟨_, same⟩
    | rejection c =>
      exact (Rejection.estimate_hopeless goes proper among low accepted.1).imp (fun _ no => no) fun _ failed => .inr failed
    | mcmc c => exact (Chain.estimate_hopeless goes proper among).imp (fun _ no => no) fun _ failed => .inr failed
    | smc c =>
      exact (Filter.estimate_hopeless goes proper among accepted).imp (fun _ no => no) fun _ same => .inl same
    | pmcmc c =>
      exact (OpeningChain.estimate_hopeless goes proper among accepted.1 tries).imp (fun _ no => no)
        fun _ failed => .inr failed
    | asyncpf c =>
      exact (Cascade.estimate_hopeless goes proper among accepted.1 accepted.2).imp (fun _ no => no)
        fun _ failed => .inr failed

end

section

open ProbCore.Cascade (Coins plain_answers unsorted endsUnsorted unsortedResume)

/-- Absorbs two scores and ends. -/
def twoFactors (x y : Exact) : PlainProgram Nat Unit Exact where
  entry := 0
  next
    | 0, s, _ => .ok (.factor s 1 .root x)
    | 1, s, _ => .ok (.factor s 2 .root y)
    | _, s, _ => .ok (.exit s (.int 7))

noncomputable abbrev twoResume (x y : Exact) : Resume (EStateM Failure Coins) Nat Unit Exact :=
  (twoFactors x y).resume

theorem twoFactors_goes (x y : Exact) : GoesOn (twoResume x y) (.int 7) [x, y] 0 .empty := by
  have ends : Straight (twoResume x y) (.int 7) [] (.exit .empty (.int 7)) := .exit
  have second : Straight (twoResume x y) (.int 7) [y] (.factor .empty 2 .root y) :=
    .absorb (plain_answers rfl trivial) fun step returned => (plain_answers rfl ends).holds returned
  exact plain_answers rfl (.absorb (plain_answers rfl trivial) fun step returned =>
    (plain_answers rfl second).holds returned)

/-- One strategy of each kind. -/
def variety : List (Strategy Exact) :=
  [.enumerate ⟨.likelyFirst, some 1⟩, .rejection ⟨.count 1, ⟨.real 0, .int 0⟩, true, .count 5⟩,
    .mcmc ⟨2, 1, 3, .count 1, false⟩, .smc ⟨3, 1, .systematic⟩, .pmcmc ⟨2, 2, .count 1⟩,
    .asyncpf ⟨.count 2, 1, 2⟩]

theorem variety_accepted : ∀ st ∈ variety, st.Accepted ∧ st.Tries := by
  simp [variety, Strategy.Accepted, Strategy.Tries, Given.count]

/-- All six strategies about two factors: both real, or the second impossible. -/
theorem twoFactors_agreed :
    (∀ st ∈ variety, Concludes (st.Tells (.int 7) [.real (-1), .real (-2)]) (fun _ => ¬ st.Returns)
      fun fuel => st.estimate (twoResume (.real (-1)) (.real (-2))) fuel 0 .empty) ∧
    ∀ st ∈ variety, Concludes (fun _ => False) (fun e => e = .degenerate ∨ ∃ fault, e = .inference fault)
      fun fuel => st.estimate (twoResume (.real (-1)) .negInf) fuel 0 .empty := by
  have below (x : ℝ) (negative : x < 0) : Score.less Score.zero (Exact.real x) = false := by
    rw [Exact.zero_eq]
    exact decide_eq_false negative.not_gt
  constructor
  · intro st member
    obtain ⟨accepted, tries⟩ := variety_accepted st member
    refine (strategies_agree (twoFactors_goes _ _) accepted tries).1 ?_ ⟨_, rfl, by decide +kernel⟩
    simp [Exact.IsReal]
  · intro st member
    obtain ⟨accepted, tries⟩ := variety_accepted st member
    refine (strategies_agree (twoFactors_goes _ _) accepted tries).2 (by simp) ?_ ?_
    · simp [Exact.Proper, Exact.IsReal]
    · intro _ x member
      rcases List.mem_pair.mp member with rfl | rfl
      · exact below (-1) (by norm_num)
      · rfl

/-- Ends at once with a float that is no number, and differs from itself. -/
def endsUndefined : PlainProgram Unit Unit Exact where
  entry := ()
  next _ s _ := .ok (.exit s (.float (0 / 0)))

noncomputable abbrev undefinedResume : Resume (EStateM Failure Coins) Unit Unit Exact := endsUndefined.resume

/-- Programs that absorb nothing and end at once. With a value that has no key even a search of the
one execution fails, and a value that differs from itself is listed once for each particle. -/
theorem ungrouped_values_disagree :
    (GoesOn unsortedResume unsorted [] () .empty ∧
      ∀ (w : Coins) (fuel : Nat), 1 ≤ fuel →
        (Strategy.enumerate ⟨.depthFirst, none⟩).estimate unsortedResume fuel () .empty w = .error .illTyped w) ∧
    GoesOn undefinedResume (.float (0 / 0)) [] () .empty ∧
      Concludes (fun M => M.values.length = 2) (fun _ => False)
        fun fuel => (Strategy.smc ⟨2, 0, .multinomial⟩).estimate undefinedResume fuel () .empty := by
  refine ⟨⟨plain_answers (P := endsUnsorted) rfl .exit, fun w fuel enough => ?_⟩, ?_⟩
  · obtain ⟨fuel, rfl⟩ := Nat.exists_eq_add_of_le' enough
    rfl
  · have goes : GoesOn undefinedResume (.float (0 / 0)) [] () .empty :=
      plain_answers (P := endsUndefined) rfl .exit
    refine ⟨goes, ?_⟩
    refine Concludes.bind (Filter.run_sum (by decide) (Rests.start goes) (List.forall_mem_nil _)) ?_
    intro out ⟨_, arrived⟩
    obtain ⟨p, q, two⟩ := List.length_eq_two.mp arrived.length
    have each := arrived.each
    rw [two] at each
    obtain ⟨⟨first, w⟩, ⟨second, z⟩⟩ : (Came (.float (0 / 0)) p.trace ∧ p.weight = 0) ∧
        Came (.float (0 / 0)) q.trace ∧ q.weight = 0 := ⟨each p (by simp), each q (by simp)⟩
    let key : Value.Key := .atom (.float (0 / 0))
    have apart : (key == key) = false := by decide +kernel
    let found : List (Value × Exact) := [(.float (0 / 0), 0), (.float (0 / 0), 0)]
    have built : Marginal.groups (found.map (·.1)) (found.map (·.2)) =
        .ok [⟨key, .float (0 / 0), [0]⟩, ⟨key, .float (0 / 0), [0]⟩] := by
      have known : (Value.float (0 / 0)).key = .ok key := rfl
      simp [found, Marginal.groups, Marginal.Group.insert, known, apart, bind, Except.bind, pure, Except.pure]
    have total : Score.logSumExp [(0 : Exact), 0] = .real (Real.log (Exact.mass [0, 0])) := by
      refine Exact.logSumExp_eq (by simp) fun w member => ⟨0, ?_⟩
      rw [Exact.real_zero]
      simpa using member
    have listed (normalization : Option Exact) (diagnostics : List (String × Measure Exact)) :
        ∃ M, Marginal.ofLogWeights [.float (0 / 0), .float (0 / 0)] [(0 : Exact), 0] normalization [] diagnostics =
          .ok M ∧ M.values.length = 2 := by
      have made := Marginal.ofLogWeights_eq built normalization [] diagnostics
      change _ = if Score.isFinite (Score.logSumExp [(0 : Exact), 0]) = true then _ else _ at made
      rw [total] at made
      exact ⟨_, made, rfl⟩
    simp only [two, List.map_cons, List.map_nil, Trace.value?, first.ending, second.ending, w, z, Option.getD_some]
    obtain ⟨M, made, long⟩ := listed (some out.logMass) out.report.diagnostics
    exact .answers (.lift made long)

end

end ProbCore
