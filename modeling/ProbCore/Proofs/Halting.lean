import ProbCore.Proofs.Conclusions
import ProbCore.Strategy.Particle

/-! Programs whose executions all end. Each comes to its value after finitely many choices and
at most so many factors, and can be resumed wherever it rests. A particle of such a program
always gets to its next factor, or to its end, or loses its weight on the way. -/

namespace ProbCore

variable {σ κ D : Type} [Host (EStateM Failure σ) D Exact] [LawfulHost σ D Exact]

/-- A real score, or that of the impossible. -/
def Exact.Proper (x : Exact) : Prop := x.IsReal ∨ x = .negInf

/-- From this step every execution comes to a value, after absorbing at most so many factors. No
score is anything but a real number or that of the impossible, and where it is the latter the
execution is not taken up again. -/
inductive Halts (resume : Resume (EStateM Failure σ) κ D Exact) (fine : Value → Prop) :
    Nat → Step κ D Exact → Prop where
  | exit {n : Nat} {s : Store} {v : Value} (ends : fine v) : Halts resume fine n (.exit s v)
  | choose {n : Nat} {s : Store} {k : κ} {a : Address} {d : D} (hashable : a.isHashable = true)
      (draws : Answers (fun _ => True) (Host.draw d : EStateM Failure σ Value))
      (weighs : ∀ v, CanReturn (Host.draw d : EStateM Failure σ Value) v →
        ∃ x, (LawfulHost.densities σ).logDensity d v = .ok x ∧ x.Proper)
      (answers : ∀ v x, CanReturn (Host.draw d : EStateM Failure σ Value) v →
        (LawfulHost.densities σ).logDensity d v = .ok (.real x) →
        Answers (fun _ => True) (resume k s v))
      (goes : ∀ v x step, CanReturn (Host.draw d : EStateM Failure σ Value) v →
        (LawfulHost.densities σ).logDensity d v = .ok (.real x) → CanReturn (resume k s v) step →
        Halts resume fine n step) :
      Halts resume fine n (.sample s k a d)
  | absorb {n : Nat} {s : Store} {k : κ} {a : Address} {x : Exact} (proper : x.Proper)
      (answers : x.IsReal → Answers (fun _ => True) (resume k s .absent))
      (goes : ∀ step, x.IsReal → CanReturn (resume k s .absent) step → Halts resume fine n step) :
      Halts resume fine (n + 1) (.factor s k a x)

/-- A rest from which every execution comes to a value. -/
def Terminates (resume : Resume (EStateM Failure σ) κ D Exact) (fine : Value → Prop) (n : Nat) (k : κ)
    (s : Store) : Prop :=
  Answers (Halts resume fine n) (resume k s .absent)

/-- A recorded execution of real scores that has so many factors left. -/
structure Paused (resume : Resume (EStateM Failure σ) κ D Exact) (fine : Value → Prop) (left : Nat)
    (t : Trace κ D Exact) : Prop where
  score : t.score.IsReal
  prior : t.prior.IsReal
  resumes : ∃ k, t.ending = .suspended k ∧ Terminates resume fine left k t.store

/-- A recorded execution of real scores that has come to its value. -/
structure Completed (fine : Value → Prop) (t : Trace κ D Exact) : Prop where
  score : t.score.IsReal
  prior : t.prior.IsReal
  value : ∃ v, t.ending = .done v ∧ fine v

theorem Exact.IsReal.add {x y : Exact} (left : x.IsReal) (right : y.IsReal) : (x + y).IsReal := by
  obtain ⟨x, rfl⟩ := left
  obtain ⟨y, rfl⟩ := right
  exact ⟨x + y, rfl⟩

theorem Exact.IsReal.sub {x y : Exact} (left : x.IsReal) (right : y.IsReal) : (x - y).IsReal := by
  obtain ⟨x, rfl⟩ := left
  obtain ⟨y, rfl⟩ := right
  exact ⟨x - y, Exact.real_sub x y⟩

theorem Exact.IsReal.less {x : Exact} (real : x.IsReal) : Score.less Score.impossible x = true := by
  obtain ⟨x, rfl⟩ := real
  rfl

variable {resume : Resume (EStateM Failure σ) κ D Exact} {fine : Value → Prop}

namespace Kernel

/-- What is recorded of an execution that goes up to its next factor. -/
def Stops (resume : Resume (EStateM Failure σ) κ D Exact) (fine : Value → Prop) (left factors : Nat)
    (t : Trace κ D Exact) : Prop :=
  Completed fine t ∨ ∃ n, left = n + 1 ∧ t.factors = factors + 1 ∧ Paused resume fine n t

variable {limit : Option Nat} {tape : Recording κ D Exact} {s : Store} {k : κ} {a : Address} {d : D}

/-- A choice is given a value with some mass, which is recorded, or the execution is abandoned. -/
theorem sample_answers (score : tape.score.IsReal) (prior : tape.prior.IsReal)
    (hashable : a.isHashable = true)
    (draws : Answers (fun _ => True) (Host.draw d : EStateM Failure σ Value))
    (weighs : ∀ v, CanReturn (Host.draw d : EStateM Failure σ Value) v →
      ∃ x, (LawfulHost.densities σ).logDensity d v = .ok x ∧ x.Proper) :
    Answers (fun reaction => reaction = .finish none ∨ ∃ v x next,
        reaction = .deliver next v ∧ CanReturn (Host.draw d : EStateM Failure σ Value) v ∧
        (LawfulHost.densities σ).logDensity d v = .ok (.real x) ∧
        next.score.IsReal ∧ next.prior.IsReal ∧ next.factors = tape.factors)
      ((handler limit none).sample tape s k a d :
        EStateM Failure σ (Reaction (Recording κ D Exact) (Option (Recorded κ D Exact)))) := by
  have accepted : ¬ (!a.isHashable) = true := by simp [hashable]
  change Answers _ (if (!a.isHashable) = true then Host.fail .illTyped else _)
  rw [if_neg accepted]
  change Answers _ (Host.draw d >>= fun value => Host.logDensity d value >>= fun lp => _)
  refine draws.bind fun v drawn _ => ?_
  obtain ⟨lp, known, proper⟩ := weighs v drawn
  have asked : Answers (· = lp) (Host.logDensity d v : EStateM Failure σ Exact) := by
    rw [LawfulHost.logDensity_eq]
    exact .lift known rfl
  refine asked.bind fun _ _ same => ?_
  subst same
  obtain ⟨x, rfl⟩ | rfl := proper
  · refine .pure (.inr ⟨v, x, _, rfl, drawn, known, ?_, ?_, rfl⟩)
    · exact score.add ⟨x, rfl⟩
    · exact prior.add ⟨x, rfl⟩
  · exact .pure (.inl rfl)

theorem drive_stops {left : Nat} {step : Step κ D Exact} (halts : Halts resume fine left step)
    (score : tape.score.IsReal) (prior : tape.prior.IsReal) :
    Concludes (fun out => ∀ r, out = some r → Stops resume fine left tape.factors r.trace)
      (fun _ => False)
      fun fuel => drive resume (handler (some (tape.factors + 1)) none) fuel tape step := by
  -- The execution may draw any number of values before its next factor, each from a smaller tree.
  induction halts generalizing tape with
  | @exit left s v ends =>
    refine Concludes.spend (.pure ?_) fun fuel => rfl
    rintro r ⟨⟩
    exact .inl ⟨score, prior, v, rfl, ends⟩
  | @choose left s k a d hashable draws weighs answers goes ih =>
    refine Concludes.spend (Concludes.bind (.answers
      (sample_answers score prior hashable draws weighs)) fun reaction reacted => ?_) fun fuel => rfl
    obtain rfl | ⟨v, x, next, rfl, drawn, known, score, prior, same⟩ := reacted
    · exact .pure nofun
    · have resumed := answers v x drawn known
      refine Concludes.bind (.answers (resumed.imp fun step returned _ => returned))
        fun step returned => ?_
      rw [← same]
      exact ih v x step drawn known returned score prior
  | @absorb left s k a x proper answers goes ih =>
    obtain ⟨x, rfl⟩ | rfl := proper
    · let after : Recording κ D Exact :=
        { tape with score := tape.score + .real x, factors := tape.factors + 1 }
      have finishes (fuel : Nat) : drive resume (handler (some (tape.factors + 1)) none) (fuel + 1) tape
          (.factor s k a (.real x)) = pure (some (after.finish s (.suspended k))) := by
        have reached : tape.factors + 1 ≤ after.factors := le_refl _
        change (if tape.factors + 1 ≤ after.factors then _ else _) >>= _ = _
        rw [if_pos reached]
        rfl
      refine Concludes.spend (.pure ?_) finishes
      rintro r ⟨⟩
      have resumes := (answers ⟨x, rfl⟩).imp fun step returned _ => goes step ⟨x, rfl⟩ returned
      exact .inr ⟨left, rfl, rfl, score.add ⟨x, rfl⟩, prior, k, rfl, resumes⟩
    · have abandons (fuel : Nat) : drive resume (handler (some (tape.factors + 1)) none) (fuel + 1) tape
          (.factor s k a .negInf) = pure none := rfl
      refine Concludes.spend (.pure ?_) abandons
      exact fun r impossible => nomatch impossible

theorem extend_stops {left : Nat} {t : Trace κ D Exact} (paused : Paused resume fine left t) :
    Concludes (fun out => ∀ u, out = some u → Stops resume fine left t.factors u) (fun _ => False)
      fun fuel => extend resume fuel t (some (t.factors + 1)) := by
  obtain ⟨score, prior, k, ending, resumes⟩ := paused
  unfold extend
  rw [ending]
  dsimp only
  refine Concludes.bind (.answers resumes) fun step halts => ?_
  let tape : Recording κ D Exact := ⟨t.choices.reverse, t.score, t.prior, t.factors, [], Score.zero⟩
  have drives : Concludes _ _ fun fuel => drive resume (handler (some (tape.factors + 1)) none) fuel tape step :=
    drive_stops halts score prior
  refine Concludes.bind drives fun out stops => .pure ?_
  intro u same
  obtain ⟨r, rfl, rfl⟩ := Option.map_eq_some_iff.mp same
  exact stops r rfl

end Kernel

namespace Particle

/-- A particle of real weight that waits to be run on, with so many factors left. -/
structure Waits (resume : Resume (EStateM Failure σ) κ D Exact) (fine : Value → Prop) (left : Nat)
    (p : Particle κ D Exact) : Prop where
  paused : Paused resume fine left p.trace
  weight : p.weight.IsReal

/-- A particle of real weight that has come to its value. -/
structure Done (fine : Value → Prop) (p : Particle κ D Exact) : Prop where
  completed : Completed fine p.trace
  weight : p.weight.IsReal

/-- Where a particle that waited is after its next factor: without weight, at its end, or waiting
again with one factor less to go. -/
def Moves (resume : Resume (EStateM Failure σ) κ D Exact) (fine : Value → Prop) (left factors : Nat)
    (q : Particle κ D Exact) : Prop :=
  q.weight = .negInf ∨ Done fine q ∨
    ∃ n, left = n + 1 ∧ q.trace.factors = factors + 1 ∧ Waits resume fine n q

theorem alive_of_real {p : Particle κ D Exact} (real : p.weight.IsReal) : p.alive = true := real.less

theorem Waits.unfinished {left : Nat} {p : Particle κ D Exact} (waits : Waits resume fine left p) :
    p.finished = false := by
  obtain ⟨⟨_, _, k, ending, _⟩, real⟩ := waits
  simp [Particle.finished, alive_of_real real, Trace.done, ending]

theorem advance_moves {left : Nat} {p : Particle κ D Exact} (waits : Waits resume fine left p) :
    Concludes (Moves resume fine left p.trace.factors) (fun _ => False)
      fun fuel => p.advance resume fuel := by
  have running : ¬ p.finished = true := by simp [waits.unfinished]
  have likelihood : p.trace.likelihood.IsReal := waits.paused.score.sub waits.paused.prior
  simp only [advance, if_neg running]
  refine Concludes.bind (Kernel.extend_stops waits.paused) fun out stops => ?_
  cases out with
  | none => exact .pure (.inl rfl)
  | some t =>
    refine .pure (.inr ?_)
    obtain completed | ⟨n, rfl, further, paused⟩ := stops t rfl
    · have gained := (completed.score.sub completed.prior).sub likelihood
      exact .inl ⟨completed, waits.weight.add gained⟩
    · have gained := (paused.score.sub paused.prior).sub likelihood
      exact .inr ⟨n, rfl, further, paused, waits.weight.add gained⟩

end Particle

end ProbCore
