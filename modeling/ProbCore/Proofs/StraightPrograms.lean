import ProbCore.Proofs.EvidenceMean
import ProbCore.Proofs.Halting
import ProbCore.Proofs.MarginalMass

/-! Programs without choices. Such a program absorbs the same scores in every execution and ends
with the same value. What the kernel records of it, and what becomes of a particle at its next
factor, depends on the scores that are left and on nothing else. -/

namespace ProbCore

variable {σ κ D : Type} [Host (EStateM Failure σ) D Exact] [LawfulHost σ D Exact]

/-- From this step the program absorbs these scores, one after another, and ends with this value. -/
inductive Straight (resume : Resume (EStateM Failure σ) κ D Exact) (v : Value) :
    List Exact → Step κ D Exact → Prop where
  | exit {s : Store} : Straight resume v [] (.exit s v)
  | absorb {s : Store} {k : κ} {a : Address} {x : Exact} {xs : List Exact}
      (answers : Answers (fun _ => True) (resume k s .absent))
      (goes : ∀ step, CanReturn (resume k s .absent) step → Straight resume v xs step) :
      Straight resume v (x :: xs) (.factor s k a x)

/-- A rest from which the program goes on in this way. -/
def GoesOn (resume : Resume (EStateM Failure σ) κ D Exact) (v : Value) (xs : List Exact) (k : κ)
    (s : Store) : Prop :=
  Answers (Straight resume v xs) (resume k s .absent)

variable {resume : Resume (EStateM Failure σ) κ D Exact} {v : Value} {x : Exact} {xs : List Exact}
  {step : Step κ D Exact}

namespace Straight

theorem ends (straight : Straight resume v [] step) : ∃ s, step = .exit s v := by
  cases straight with
  | exit => exact ⟨_, rfl⟩

theorem absorbs (straight : Straight resume v (x :: xs) step) :
    ∃ s k a, step = .factor s k a x ∧ GoesOn resume v xs k s := by
  cases straight with
  | absorb answers goes =>
    exact ⟨_, _, _, rfl, answers.imp fun step returned _ => goes step returned⟩

/-- What a handler keeps true of its state and the scores that are left leads to what it concludes
of the whole execution. -/
theorem drive {τ ο : Type} {h : Handler (EStateM Failure σ) κ D Exact τ ο} (kept : List Exact → τ → Prop)
    {good : ο → Prop} {allowed : Failure → Prop}
    (absorb : ∀ {x : Exact} {xs : List Exact} {state : τ} {s : Store} {k : κ} {a : Address},
      kept (x :: xs) state → Concludes (fun reaction => (∃ o, reaction = .finish o ∧ good o) ∨
          ∃ next, reaction = .deliver next .absent ∧ kept xs next) allowed
        fun _ => h.factor state s k a x)
    (exit : ∀ {state : τ} {s : Store}, kept [] state → Concludes good allowed fun _ => h.exit state s v)
    (straight : Straight resume v xs step) {state : τ} (holds : kept xs state) :
    Concludes good allowed fun fuel => ProbCore.drive resume h fuel state step := by
  induction straight generalizing state with
  | exit => exact Concludes.spend (exit holds) fun fuel => rfl
  | @absorb s k a x xs answers goes ih =>
    refine Concludes.spend (Concludes.bind (absorb (s := s) (k := k) (a := a) holds) ?_) fun fuel => rfl
    intro reaction reacted
    obtain ⟨o, rfl, ended⟩ | ⟨next, rfl, holds⟩ := reacted
    · exact .pure ended
    · apply Concludes.bind (.answers (answers.imp fun step returned _ => returned))
      intro step returned
      exact ih step returned holds

/-- All its executions end. -/
theorem halts (straight : Straight resume v xs step) (proper : ∀ x ∈ xs, x.Proper) :
    Halts resume (fun u => u = v) xs.length step := by
  induction straight with
  | exit => exact .exit rfl
  | absorb answers goes ih =>
    obtain ⟨first, rest⟩ := List.forall_mem_cons.mp proper
    exact .absorb first (fun _ => answers) fun step _ returned => ih step returned rest

end Straight

theorem GoesOn.terminates {k : κ} {s : Store} (goes : GoesOn resume v xs k s)
    (proper : ∀ x ∈ xs, x.Proper) : Terminates resume (fun u => u = v) xs.length k s :=
  goes.imp fun _ _ straight => straight.halts proper

/-- An execution in real scores, without choices, that rests with these scores to absorb. -/
structure Rests (resume : Resume (EStateM Failure σ) κ D Exact) (v : Value) (xs : List Exact)
    (t : Trace κ D Exact) : Prop where
  choices : t.choices = []
  score : t.score.IsReal
  prior : t.prior.IsReal
  goes : ∃ k, t.ending = .suspended k ∧ GoesOn resume v xs k t.store

/-- An execution in real scores, without choices, that has come to this value. -/
structure Came (v : Value) (t : Trace κ D Exact) : Prop where
  choices : t.choices = []
  score : t.score.IsReal
  prior : t.prior.IsReal
  ending : t.ending = .done v

theorem Rests.start {entry : κ} {s : Store} (goes : GoesOn resume v xs entry s) :
    Rests resume v xs (.start entry s) := by
  have real_zero : (Score.zero : Exact).IsReal := ⟨0, Exact.zero_eq⟩
  exact ⟨rfl, real_zero, real_zero, entry, rfl, goes⟩

namespace Kernel

variable {t : Trace κ D Exact} {limit : Option Nat}

/-- The tape on which a suspended execution goes on. -/
noncomputable def again (t : Trace κ D Exact) : Recording κ D Exact :=
  ⟨t.choices.reverse, t.score, t.prior, t.factors, [], Score.zero⟩

omit [LawfulHost σ D Exact] in
theorem extend_eq {k : κ} (ending : t.ending = .suspended k) (fuel : Nat) :
    extend resume fuel t limit = (do
      let result ← drive resume (handler limit none) fuel (again t) (← resume k t.store .absent)
      return result.map (·.trace)) := by
  rw [extend, ending]
  rfl

/-- An execution with no factor left runs to its end. -/
theorem extend_end (rests : Rests resume v [] t) :
    Concludes (fun out => ∃ u, out = some u ∧ Came v u ∧ u.likelihood = t.likelihood) (fun _ => False)
      fun fuel => extend resume fuel t limit := by
  obtain ⟨k, ending, goes⟩ := rests.goes
  simp only [extend_eq ending]
  apply Concludes.bind (.answers goes)
  intro step straight
  obtain ⟨s, rfl⟩ := straight.ends
  let final : Recorded κ D Exact := (again t).finish s (.done v)
  have ended : Concludes (· = some final) (fun _ => False)
      fun fuel => drive resume (handler limit none) fuel (again t) (.exit s v) :=
    Concludes.spend (.pure rfl) fun fuel => rfl
  refine Concludes.bind ended fun out same => .pure ⟨final.trace, ?_, ?_, rfl⟩
  · rw [same]
    rfl
  · exact ⟨by simp [final, again, Recording.finish, Recording.snapshot, rests.choices], rests.score,
      rests.prior, rfl⟩

/-- An execution goes up to its next factor, which is absorbed. -/
theorem extend_next (rests : Rests resume v (x :: xs) t) (real : x.IsReal) :
    Concludes (fun out => ∃ u, out = some u ∧ Rests resume v xs u ∧
        u.likelihood = t.likelihood + x ∧ u.factors = t.factors + 1) (fun _ => False)
      fun fuel => extend resume fuel t (some (t.factors + 1)) := by
  obtain ⟨k, ending, goes⟩ := rests.goes
  simp only [extend_eq ending]
  apply Concludes.bind (.answers goes)
  intro step straight
  obtain ⟨s, k, a, rfl, goes⟩ := straight.absorbs
  let tape : Recording κ D Exact :=
    { again t with score := t.score + x, factors := t.factors + 1 }
  let final : Recorded κ D Exact := tape.finish s (.suspended k)
  have reached : Concludes (· = some final) (fun _ => False)
      fun fuel => drive resume (handler (some (t.factors + 1)) none) fuel (again t) (.factor s k a x) := by
    obtain ⟨y, rfl⟩ := real
    refine Concludes.spend (.pure rfl) fun fuel => ?_
    have limited : t.factors + 1 ≤ tape.factors := le_refl _
    change (if t.factors + 1 ≤ tape.factors then _ else _) >>= _ = _
    rw [if_pos limited]
    rfl
  refine Concludes.bind reached fun out same => .pure ⟨final.trace, ?_, ?_, ?_, rfl⟩
  · rw [same]
    rfl
  · exact ⟨by simp [final, tape, again, Recording.finish, Recording.snapshot, rests.choices],
      rests.score.add real, rests.prior, k, rfl, goes⟩
  · change t.score + x - t.prior = t.score - t.prior + x
    rw [add_sub_right_comm]

/-- An execution ends without a trace at an impossible factor. -/
theorem extend_impossible (rests : Rests resume v (.negInf :: xs) t) :
    Concludes (fun out => out = none) (fun _ => False) fun fuel => extend resume fuel t limit := by
  obtain ⟨k, ending, goes⟩ := rests.goes
  simp only [extend_eq ending]
  apply Concludes.bind (.answers goes)
  intro step straight
  obtain ⟨s, k, a, rfl, goes⟩ := straight.absorbs
  have lost : Concludes (· = none) (fun _ => False)
      fun fuel => drive resume (handler limit none) fuel (again t) (.factor s k a .negInf) :=
    Concludes.spend (.pure rfl) fun fuel => rfl
  refine Concludes.bind lost fun out same => .pure ?_
  rw [same]
  rfl

/-- A factor of the kernel, when nothing limits their number. -/
theorem absorb_concludes {tape : Recording κ D Exact} {s : Store} {k : κ} {a : Address} (proper : x.Proper) :
    Concludes (fun reaction => (x = .negInf ∧ reaction = .finish none) ∨
        x.IsReal ∧ reaction = .deliver { tape with score := tape.score + x, factors := tape.factors + 1 } .absent)
      (fun _ => False)
      fun _ => ((handler none none).factor tape s k a x :
        EStateM Failure σ (Reaction (Recording κ D Exact) (Option (Recorded κ D Exact)))) := by
  obtain ⟨y, rfl⟩ | rfl := proper
  · exact .pure (.inr ⟨⟨y, rfl⟩, rfl⟩)
  · exact .pure (.inl ⟨rfl, rfl⟩)

/-- All real scores are absorbed, and the execution comes to its value. -/
theorem extend_whole (rests : Rests resume v xs t) (real : ∀ x ∈ xs, x.IsReal) :
    Concludes (fun out => ∃ u, out = some u ∧ Came v u) (fun _ => False)
      fun fuel => extend resume fuel t none := by
  obtain ⟨k, ending, goes⟩ := rests.goes
  simp only [extend_eq ending]
  apply Concludes.bind (.answers goes)
  intro step straight
  let kept (xs : List Exact) (tape : Recording κ D Exact) : Prop :=
    (∀ x ∈ xs, x.IsReal) ∧ tape.choices = [] ∧ tape.score.IsReal ∧ tape.prior.IsReal
  have begins : kept xs (again t) :=
    ⟨real, by simp [again, rests.choices], rests.score, rests.prior⟩
  have driven : Concludes (fun out => ∃ r : Recorded κ D Exact, out = some r ∧ Came v r.trace) (fun _ => False)
      fun fuel => drive resume (handler none none) fuel (again t) step := by
    refine straight.drive kept ?_ ?_ begins
    · intro x xs tape s k a ⟨real, choices, score, prior⟩
      obtain ⟨first, rest⟩ := List.forall_mem_cons.mp real
      refine (absorb_concludes (.inl first)).imp ?_ fun _ impossible => impossible
      intro reaction reacted
      obtain ⟨rfl, _⟩ | ⟨real, rfl⟩ := reacted
      · exact (nomatch first)
      · exact .inr ⟨_, rfl, rest, choices, score.add real, prior⟩
    · intro tape s ⟨_, choices, score, prior⟩
      refine .pure ⟨_, rfl, ?_, score, prior, rfl⟩
      simp [Recording.finish, Recording.snapshot, choices]
  refine Concludes.bind driven fun out came => .pure ?_
  obtain ⟨r, rfl, came⟩ := came
  exact ⟨r.trace, rfl, came⟩

/-- With an impossible score among them, the execution ends without a trace. -/
theorem extend_hopeless (rests : Rests resume v xs t) (proper : ∀ x ∈ xs, x.Proper) (among : .negInf ∈ xs) :
    Concludes (fun out => out = none) (fun _ => False) fun fuel => extend resume fuel t none := by
  obtain ⟨k, ending, goes⟩ := rests.goes
  simp only [extend_eq ending]
  apply Concludes.bind (.answers goes)
  intro step straight
  let kept (xs : List Exact) (_ : Recording κ D Exact) : Prop := (∀ x ∈ xs, x.Proper) ∧ .negInf ∈ xs
  have driven : Concludes (· = none) (fun _ => False)
      fun fuel => drive resume (handler none none) fuel (again t) step := by
    refine straight.drive kept ?_ ?_ ⟨proper, among⟩
    · intro x xs tape s k a ⟨proper, among⟩
      obtain ⟨first, rest⟩ := List.forall_mem_cons.mp proper
      refine (absorb_concludes first).imp ?_ fun _ impossible => impossible
      intro reaction reacted
      obtain ⟨_, rfl⟩ | ⟨⟨y, rfl⟩, rfl⟩ := reacted
      · exact .inl ⟨none, rfl, rfl⟩
      · refine .inr ⟨_, rfl, rest, ?_⟩
        simpa using among
    · intro tape s ⟨_, among⟩
      exact (nomatch among)
  refine Concludes.bind driven fun out same => .pure ?_
  rw [same]
  rfl

end Kernel

namespace Particle

variable {p : Particle κ D Exact}

omit [Host (EStateM Failure σ) D Exact] [LawfulHost σ D Exact] in
theorem finished_of_came (came : Came v p.trace) : p.finished = true := by
  simp [Particle.finished, Trace.done, came.ending]

theorem unfinished_of_rests (rests : Rests resume v xs p.trace) (real : p.weight.IsReal) :
    p.finished = false := by
  obtain ⟨k, ending, _⟩ := rests.goes
  simp [Particle.finished, alive_of_real real, Trace.done, ending]

omit [LawfulHost σ D Exact] in
theorem advance_finished (finished : p.finished = true) (fuel : Nat) :
    p.advance resume fuel = pure p := by
  rw [advance, if_pos finished]

/-- A particle as its execution went on, if it did. -/
noncomputable def after (p : Particle κ D Exact) : Option (Trace κ D Exact) → Particle κ D Exact
  | none => ⟨p.trace, Score.impossible⟩
  | some t => ⟨t, p.weight + (t.likelihood - p.trace.likelihood)⟩

omit [LawfulHost σ D Exact] in
theorem advance_eq (unfinished : p.finished = false) (fuel : Nat) :
    p.advance resume fuel =
      (do return p.after (← Kernel.extend resume fuel p.trace (some (p.trace.factors + 1)))) := by
  rw [advance, if_neg (by simp [unfinished])]
  congr
  funext out
  cases out <;> rfl

/-- A particle with no factor left comes to its value, and its weight stays. -/
theorem advance_end (rests : Rests resume v [] p.trace) (real : p.weight.IsReal) :
    Concludes (fun q => Came v q.trace ∧ q.weight = p.weight) (fun _ => False)
      fun fuel => p.advance resume fuel := by
  simp only [advance_eq (unfinished_of_rests rests real)]
  apply Concludes.bind (Kernel.extend_end rests)
  intro out ⟨u, same, came, likelihood⟩
  subst same
  refine .pure ⟨came, ?_⟩
  obtain ⟨y, known⟩ : p.trace.likelihood.IsReal := rests.score.sub rests.prior
  change p.weight + (u.likelihood - p.trace.likelihood) = p.weight
  rw [likelihood, known, Exact.real_sub, sub_self, Exact.real_zero, add_zero]

/-- A particle gains the score of its next factor. -/
theorem advance_next (rests : Rests resume v (x :: xs) p.trace) (weight : p.weight.IsReal) (real : x.IsReal) :
    Concludes (fun q => Rests resume v xs q.trace ∧ q.weight = p.weight + x ∧
        q.trace.factors = p.trace.factors + 1) (fun _ => False)
      fun fuel => p.advance resume fuel := by
  simp only [advance_eq (unfinished_of_rests rests weight)]
  apply Concludes.bind (Kernel.extend_next rests real)
  intro out ⟨u, same, further, likelihood, factors⟩
  subst same
  refine .pure ⟨further, ?_, factors⟩
  obtain ⟨y, known⟩ : p.trace.likelihood.IsReal := rests.score.sub rests.prior
  obtain ⟨z, rfl⟩ := real
  change p.weight + (u.likelihood - p.trace.likelihood) = _
  rw [likelihood, known, Exact.real_add, Exact.real_sub, add_sub_cancel_left]

/-- A particle loses its weight at an impossible factor. -/
theorem advance_impossible (rests : Rests resume v (.negInf :: xs) p.trace) (weight : p.weight.IsReal) :
    Concludes (fun q => q.weight = .negInf) (fun _ => False) fun fuel => p.advance resume fuel := by
  simp only [advance_eq (unfinished_of_rests rests weight)]
  apply Concludes.bind (Kernel.extend_impossible rests)
  intro out same
  subst same
  exact .pure rfl

end Particle

/-- All of the mass is on one value. -/
structure Marginal.IsPoint (M : Marginal Value Exact) (v : Value) : Prop where
  values : M.values = [v]
  logProbs : M.logProbs = [0]

namespace Marginal

variable {key : Value.Key} {ws : List Exact} {vs : List Value}

theorem groups_same (known : v.key = .ok key) (itself : (key == key) = true) (w : Exact) :
    groups (List.replicate (w :: ws).length v) (w :: ws) = .ok [⟨key, v, w :: ws⟩] := by
  have rest (before : List Exact) :
      ((List.replicate ws.length v).zip ws).foldlM
        (fun gs (p : Value × Exact) => do return Group.insert (← p.1.key) p.1 p.2 gs) [⟨key, v, before⟩] =
      Except.ok [⟨key, v, before ++ ws⟩] := by
    induction ws generalizing before with
    | nil => simp [pure, Except.pure]
    | cons w ws ih =>
      rw [List.length_cons, List.replicate_succ, List.zip_cons_cons, List.foldlM_cons]
      simp only [known, Group.insert, itself, if_true, bind, Except.bind, pure, Except.pure] at ih ⊢
      rw [ih, List.append_assoc]
      rfl
  unfold groups
  rw [List.length_cons, List.replicate_succ, List.zip_cons_cons, List.foldlM_cons]
  simp only [known, Group.insert, bind, Except.bind, pure, Except.pure] at rest ⊢
  exact rest [w]

/-- Equal values of some real weight make a point. -/
theorem ofLogWeights_point (known : v.key = .ok key) (itself : (key == key) = true) (some_there : ws ≠ [])
    (real : ∀ w ∈ ws, w.IsReal) (long : vs.length = ws.length) (same : ∀ u ∈ vs, u = v)
    (normalization : Option Exact) (samples : List Value) (diagnostics : List (String × Measure Exact)) :
    ofLogWeights vs ws normalization samples diagnostics =
      .ok ⟨[v], [0], normalization, samples, diagnostics⟩ := by
  obtain rfl : vs = List.replicate ws.length v := List.eq_replicate_iff.mpr ⟨long, same⟩
  have total := Exact.logSumExp_eq some_there real
  obtain ⟨w, ws, rfl⟩ := List.exists_cons_of_ne_nil some_there
  unfold ofLogWeights
  rw [groups_same known itself]
  simp only [List.length_replicate, bne_self_eq_false, Bool.false_eq_true, if_false]
  change (if (!Score.isFinite (Score.logSumExp (w :: ws))) = true then _ else _) = _
  rw [total]
  have single (x : Exact) : Score.logSumExp [x] = x := rfl
  change Except.ok _ = _
  simp only [List.map_cons, List.map_nil, total, single, Exact.real_sub, sub_self, Exact.real_zero]

end Marginal

end ProbCore
