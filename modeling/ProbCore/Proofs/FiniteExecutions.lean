import ProbCore.Proofs.Conclusions
import ProbCore.Proofs.Lockstep

/-! Programs whose executions all come to an end, whatever values their choices are given. Under any
limit the kernel then comes to a result, for an execution that it takes up as for a move. -/

namespace ProbCore

section

variable {σ D R : Type} [Host (EStateM Failure σ) D R] [LawfulHost σ D R] {α : Type}
  {good : α → Prop} {allowed : Failure → Prop}

/-- A computation that needs no fuel returns, or fails as is allowed. -/
def Replies (allowed : Failure → Prop) (x : EStateM Failure σ α) : Prop :=
  Concludes (fun _ => True) allowed fun _ => x

theorem Replies.concludes {x : EStateM Failure σ α} (replies : Replies allowed x)
    (holds : ∀ a, Yields x a → good a) : Concludes good allowed fun _ => x := by
  refine (Concludes.seen replies).imp ?_ fun _ may => may
  rintro a ⟨_, _, yields⟩
  exact holds a yields

theorem Answers.replies {x : EStateM Failure σ α} (answers : Answers good x) : Replies allowed x :=
  .answers (answers.imp fun _ _ _ => trivial)

theorem Replies.lift {r : Except Failure α} {a : α} (known : r = .ok a) :
    Replies allowed (Host.lift r : EStateM Failure σ α) := .answers (.lift known trivial)

end

namespace Kernel

open ProbCore.Filter (Takes)

variable {σ κ D : Type} [Host (EStateM Failure σ) D Exact] [LawfulHost σ D Exact]

/-- Every execution from this step comes to its end. All that it asks for on its way is answered or
fails as is allowed, whatever values with some mass its choices are given. -/
inductive Ceases (resume : Resume (EStateM Failure σ) κ D Exact) (allowed : Failure → Prop) :
    Step κ D Exact → Prop where
  | exit {s : Store} {v : Value} : Ceases resume allowed (.exit s v)
  | stray {v : Value} (may : allowed (.inference (.strayResult v))) : Ceases resume allowed (.stray v)
  | choose {s : Store} {k : κ} {a : Address} {d : D} (hashable : a.isHashable = false → allowed .illTyped)
      (draws : Replies allowed (Host.draw d : EStateM Failure σ Value))
      (judges : ∀ v, Replies allowed (Host.accepts d v : EStateM Failure σ Bool))
      (weighs : ∀ v, Choosable σ d v → Replies allowed (Host.logDensity d v : EStateM Failure σ Exact))
      (resumes : ∀ v, Takes σ d v → Replies allowed (resume k s v))
      (goes : ∀ v step, Takes σ d v → Yields (resume k s v) step → Ceases resume allowed step) :
      Ceases resume allowed (.sample s k a d)
  | absorb {s : Store} {k : κ} {a : Address} {x : Exact}
      (resumes : tolerable x = true → Replies allowed (resume k s .absent))
      (goes : ∀ step, tolerable x = true → Yields (resume k s .absent) step → Ceases resume allowed step) :
      Ceases resume allowed (.factor s k a x)

/-- A rest can be resumed, and every execution from there comes to its end. -/
structure Ceasing (resume : Resume (EStateM Failure σ) κ D Exact) (allowed : Failure → Prop) (k : κ)
    (s : Store) (v : Value) : Prop where
  resumes : Replies allowed (resume k s v)
  ceases : ∀ step, Yields (resume k s v) step → Ceases resume allowed step

variable {resume : Resume (EStateM Failure σ) κ D Exact} {allowed : Failure → Prop}

theorem Ceases.chosen {s : Store} {k : κ} {a : Address} {d : D} {v : Value}
    (ceases : Ceases resume allowed (.sample s k a d)) (taken : Takes σ d v) :
    Ceasing resume allowed k s v := by
  cases ceases with
  | choose hashable draws judges weighs resumes goes => exact ⟨resumes v taken, fun step => goes v step taken⟩

theorem Ceases.absorbed {s : Store} {k : κ} {a : Address} {x : Exact}
    (ceases : Ceases resume allowed (.factor s k a x)) (fine : tolerable x = true) :
    Ceasing resume allowed k s .absent := by
  cases ceases with
  | absorb resumes goes => exact ⟨resumes fine, fun step => goes step fine⟩

theorem Ceasing.concludes {k : κ} {s : Store} {v : Value} (ceasing : Ceasing resume allowed k s v) :
    Concludes (Ceases resume allowed) allowed fun _ => resume k s v :=
  ceasing.resumes.concludes ceasing.ceases

section

variable {limit : Option Nat} {old : Option (Trace κ D Exact)} {tape : Recording κ D Exact}

theorem carriedOver?_replies (a : Address) {d : D}
    (judges : ∀ v, Replies allowed (Host.accepts d v : EStateM Failure σ Bool)) :
    Replies allowed (carriedOver? old tape a d : EStateM Failure σ (Option Value)) := by
  unfold carriedOver?
  split
  next => exact Concludes.pure trivial
  next c found =>
    split
    next => exact Concludes.pure trivial
    next => exact Concludes.bind (judges c.value) fun accepted _ => .pure trivial

/-- A choice that has some density to be weighed by is recorded, or the execution is abandoned. -/
private theorem weigh_replies {d : D} {v : Value} (f : Exact → Recording κ D Exact)
    (weighs : Replies allowed (Host.logDensity d v : EStateM Failure σ Exact)) :
    Replies allowed (do
      let lp ← Host.logDensity d v
      if Score.isImpossible lp then return .finish none
      else return .deliver (f lp) v :
        EStateM Failure σ (Reaction (Recording κ D Exact) (Option (Recorded κ D Exact)))) := by
  refine Concludes.bind weighs fun lp _ => ?_
  split
  · exact .pure trivial
  · exact .pure trivial

omit [LawfulHost σ D Exact] in
theorem drive_factor (resume : Resume (EStateM Failure σ) κ D Exact) (limit : Option Nat)
    (old : Option (Trace κ D Exact)) (fuel : Nat) (tape : Recording κ D Exact) (s : Store) (k : κ)
    (a : Address) (x : Exact) :
    drive resume (handler limit old) (fuel + 1) tape (.factor s k a x) =
      match onFactor limit tape s k x with
      | .deliver next v => resume k s v >>= drive resume (handler limit old) fuel next
      | .finish outcome => pure outcome := by
  change (handler limit old).factor tape s k a x >>= _ = _
  rw [handler_factor, pure_bind]
  cases onFactor limit tape s k x with
  | deliver next v => rfl
  | finish outcome => rfl

variable [SoundHost σ D Exact]

/-- A choice is given a value with some mass, or the execution is abandoned. -/
theorem sample_ceases {s : Store} {k : κ} {a : Address} {d : D}
    (ceases : Ceases resume allowed (.sample s k a d)) :
    Concludes (fun reaction => reaction = .finish none ∨ ∃ next v, reaction = .deliver next v ∧ Takes σ d v)
      allowed fun _ => ((handler limit old).sample tape s k a d :
        EStateM Failure σ (Reaction (Recording κ D Exact) (Option (Recorded κ D Exact)))) := by
  have replies : Replies allowed ((handler limit old).sample tape s k a d :
      EStateM Failure σ (Reaction (Recording κ D Exact) (Option (Recorded κ D Exact)))) := by
    cases ceases with
    | choose hashable draws judges weighs resumes goes =>
      simp only [handler]
      split
      next bad => exact Concludes.fail (hashable (by simpa using bad))
      next =>
        have looked : Replies allowed (carriedOver? old tape a d : EStateM Failure σ (Option Value)) :=
          carriedOver?_replies a judges
        have looks := looked.concludes fun _ found => found
        refine Concludes.bind looks fun found looked => ?_
        cases found with
        | some v => exact weigh_replies _ (weighs v (carriedOver?_offers looked).choosable)
        | none =>
          refine Concludes.bind (draws.concludes fun _ drawn => drawn) fun v drawn => ?_
          exact weigh_replies _ (weighs v (.inl drawn))
  refine replies.concludes fun reaction reacted => ?_
  rcases handler_sample_yields reacted with stopped | ⟨v, lp, reused, fresh, offered, asked, possible, went⟩
  · exact .inl stopped
  · exact .inr ⟨_, v, went, offered.choosable, lp, asked, possible⟩

/-- However an execution is recorded, the recording comes to a result. -/
theorem drive_ceases {step : Step κ D Exact} (ceases : Ceases resume allowed step) :
    Concludes (fun _ => True) allowed
      fun fuel => drive resume (handler limit old) fuel tape step := by
  induction ceases generalizing tape with
  | exit => exact Concludes.spend (.pure trivial) fun _ => rfl
  | stray may => exact Concludes.spend (.fail may) fun _ => rfl
  | @choose s k a d hashable draws judges weighs resumes goes ih =>
    have ceases : Ceases resume allowed (.sample s k a d) := .choose hashable draws judges weighs resumes goes
    refine Concludes.spend (Concludes.bind (sample_ceases ceases) fun reaction reacted => ?_) fun _ => rfl
    obtain rfl | ⟨next, v, rfl, taken⟩ := reacted
    · exact .pure trivial
    · refine Concludes.bind ((resumes v taken).concludes fun _ went => went) fun step went => ?_
      exact ih v step taken went
  | @absorb s k a x resumes goes ih =>
    have reacts (fuel : Nat) := drive_factor resume limit old fuel tape s k a x
    cases fine : tolerable x with
    | false =>
      refine Concludes.spend (.pure (a := none) trivial) fun fuel => ?_
      rw [reacts, onFactor, fine]
      rfl
    | true =>
      cases stop : stops limit (tape.factors + 1) with
      | true =>
        let out : Recorded κ D Exact := (tape.absorb x).finish s (.suspended k)
        refine Concludes.spend (.pure (a := some out) trivial) fun fuel => ?_
        rw [reacts, onFactor_stopped s k fine stop]
      | false =>
        have goes_on := Concludes.bind (f := fun fuel => drive resume (handler limit old) fuel (tape.absorb x))
          ((resumes fine).concludes fun _ went => went) fun step went => ih step fine went
        refine goes_on.spend fun fuel => ?_
        rw [reacts, onFactor_absorbed s k fine stop]

/-- What is taken up from a rest comes to a result. -/
theorem extend_ceases {t : Trace κ D Exact}
    (ceasing : ∀ k, t.ending = .suspended k → Ceasing resume allowed k t.store .absent) :
    Concludes (fun _ => True) allowed fun fuel => extend resume fuel t limit := by
  unfold extend
  split
  next v ending => exact .pure trivial
  next k ending =>
    refine Concludes.bind (ceasing k ending).concludes fun step ceases => ?_
    exact Concludes.bind (drive_ceases ceases) fun out _ => .pure trivial

/-- So does a proposal from any choice of a trace. -/
theorem regenerate_ceases [AnsweringHost σ D] {t : Trace κ D Exact}
    (ceases : ∀ c ∈ t.choices, Ceases resume allowed (.sample c.store c.k c.address c.dist)) :
    Concludes (fun _ => True) allowed fun fuel => regenerate resume fuel t limit := by
  unfold regenerate
  dsimp only
  split
  next => exact .pure trivial
  next some_there =>
    have positive : 0 < t.choices.length := by
      rw [beq_iff_eq] at some_there
      omega
    refine Concludes.bind (.answers (AnsweringHost.indexBelow_answers positive)) fun i inside => ?_
    rw [List.getElem?_eq_getElem inside]
    have site := ceases _ (List.getElem_mem inside)
    cases site with
    | choose hashable draws judges weighs resumes goes =>
      refine Concludes.bind (draws.concludes fun _ drawn => drawn) fun v drawn => ?_
      refine Concludes.bind ((weighs v (.inl drawn)).concludes fun _ asked => asked) fun lp asked => ?_
      split
      next => exact .pure trivial
      next possible =>
        have taken : Takes σ t.choices[i].dist v := ⟨.inl drawn, lp, asked, by simpa using possible⟩
        refine Concludes.bind ((resumes v taken).concludes fun _ went => went) fun step went => ?_
        refine Concludes.bind (drive_ceases (goes v step taken went)) fun out _ => ?_
        split
        · exact .pure trivial
        · exact .pure trivial

theorem move_ceases [AnsweringHost σ D] {t : Trace κ D Exact}
    (ceases : ∀ c ∈ t.choices, Ceases resume allowed (.sample c.store c.k c.address c.dist)) :
    Concludes (fun _ => True) allowed fun fuel => move resume fuel t limit := by
  unfold move
  refine Concludes.bind (regenerate_ceases ceases) fun proposed _ => ?_
  split
  next => exact .pure trivial
  next =>
    refine Concludes.bind (.answers (AnsweringHost.logUniform_answers.imp fun _ _ _ => trivial)) fun u _ => ?_
    split
    · exact .pure trivial
    · exact .pure trivial

end

/-- Wherever the kernel leaves an execution of such a program, what is left of it comes to its end. -/
def ceasingAlong (resume : Resume (EStateM Failure σ) κ D Exact) (allowed : Failure → Prop) :
    Invariant True resume where
  holds _ _ k s v := Ceasing resume allowed k s v
  fair _ := True
  choose held goes offered weighs possible :=
    ⟨trivial, (held.ceases _ goes).chosen ⟨offered.choosable, _, weighs, possible⟩⟩
  absorb held goes fine := (held.ceases _ goes).absorbed fine

section

variable [SoundHost σ D Exact] {entry : κ} {s : Store} {t : Trace κ D Exact}

theorem Made.ceasing (begins : Ceasing resume allowed entry s .absent) (made : Made True resume entry s t) :
    (∀ k, t.ending = .suspended k → Ceasing resume allowed k t.store .absent) ∧
      ∀ c ∈ t.choices, Ceases resume allowed (.sample c.store c.k c.address c.dist) := by
  have upholds := (ceasingAlong resume allowed).upholds_made begins made
  refine ⟨fun k ending => upholds.closes.holds ending, fun c member => ?_⟩
  obtain ⟨before, after, parts⟩ := List.append_of_mem member
  obtain ⟨_, _, _, held, goes⟩ := (upholds.sound before c after parts).2
  exact held.ceases _ goes

end

end Kernel

end ProbCore
