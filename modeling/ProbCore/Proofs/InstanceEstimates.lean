import ProbCore.Proofs.InstanceFields

/-! An estimate on an instance is an estimate of the strategy, whatever the fields were before: what it reads of them
it has set before. -/

namespace ProbCore.Instance

variable {σ κ D R : Type} [Host (EStateM Failure σ) D R] [Score R] [LawfulHost σ D R]
  {resume : Resume (EStateM Failure σ) κ D R} {fuel steps : Nat}

namespace Enumeration

open ProbCore.Enumeration (Config Search)

omit [LawfulHost σ D R] in
theorem hooks_play : Plays (hooks : Hooks σ κ D R) ProbCore.Enumeration.handler (fun st f => f.search = st)
    fun _ f st => f.search = st where
  sample {st f} s k a d held := by
    subst held
    refine .fields_bind ?_
    dsimp only [ProbCore.Enumeration.handler]
    rw [← bind_assoc (Host.support d)]
    refine .host_bind fun branches => .update_bind ?_
    exact .pure rfl
  factor {st f} s k a x held := by
    subst held
    refine .update_bind (.fields_bind (.ite (fun _ => .pure rfl) fun _ => .pure ⟨rfl, rfl⟩))
  exit {st f} s v held := by
    subst held
    exact .update_bind (.pure rfl)

theorem explore_enacts (c : Config) {f : Fields κ D R} {st : Search κ R} (held : f.search = st) :
    Enacts f (explore resume c steps fuel) (ProbCore.Enumeration.explore resume c steps fuel st)
      fun _ f' st' => f'.search = st' := by
  induction fuel generalizing f st with
  | zero => exact .fail _
  | succ fuel ih =>
    subst held
    refine .fields_bind (.ite (fun _ => .pure rfl) fun _ => ?_)
    cases f.search.frontier.pop? with
    | none => exact .pure rfl
    | some next =>
      refine .update_bind (.host_bind fun step => ?_)
      exact (hooks_play.trampoline resume steps step rfl).bind fun _ _ _ held => ih held

theorem estimate_answers (c : Config) (entry : κ) (s : Store) (f : Fields κ D R) :
    Answers f (estimate resume fuel c entry s) (ProbCore.Enumeration.estimate resume fuel c entry s) := by
  unfold ProbCore.Enumeration.estimate ProbCore.Enumeration.search
  simp only [bind_assoc]
  refine .update_bind (.host_bind fun step => ?_)
  refine (hooks_play.trampoline resume fuel step rfl).bind fun _ f' st held => ?_
  refine (explore_enacts c held).bind fun _ f' st held => ?_
  subst held
  refine .fields_bind (.ite (fun _ => .fail _) fun _ => .host_bind fun _ => ?_)
  exact (Enacts.host _).imp fun _ _ _ both => both.2

end Enumeration

namespace Rejection

open ProbCore.Rejection (Config)

/-- The values accepted, with the one of this attempt if it is accepted. -/
def more (accepted : List Value) : Option Value → List Value
  | some v => v :: accepted
  | none => accepted

/-- The fields of an attempt that goes on. -/
structure Attempts (threshold : R) (accepted : List Value) (score : R) (f : Fields κ D R) : Prop where
  score : f.score = score
  threshold : f.threshold = threshold
  accepted : f.accepted = accepted

theorem hooks_play (c : Config R) (threshold : R) (accepted : List Value) :
    Plays (hooks c : Hooks σ κ D R) (ProbCore.Rejection.handler c threshold) (Attempts threshold accepted)
      fun _ f v => f.accepted = more accepted v where
  sample {score f} s k a d held := .host_bind fun v => .pure ⟨rfl, held⟩
  factor {score f} s k a x held := by
    obtain ⟨rfl, rfl, rfl⟩ := held
    refine .ite (fun _ => .ite (fun _ => .fail _) fun _ => ?_) fun _ => .update_bind (.pure ⟨rfl, rfl, rfl, rfl⟩)
    exact .update_bind (.fields_bind (.ite (fun _ => .pure rfl) fun _ => .pure ⟨rfl, rfl, rfl, rfl⟩))
  exit {score f} s v held := by
    obtain ⟨rfl, rfl, rfl⟩ := held
    refine .fields_bind (.ite (fun _ => .update_bind (.pure rfl)) fun _ => .ite (fun _ => .fail _) fun _ => ?_)
    exact .ite (fun _ => .update_bind (.pure rfl)) fun _ => .pure rfl

theorem collect_enacts (c : Config R) (entry : κ) (s : Store) (remaining made : Nat) {f : Fields κ D R} :
    Enacts f (collect resume fuel c entry s remaining made)
      (ProbCore.Rejection.collect resume fuel c entry s remaining made f.accepted f.accepted.length)
      fun made f' out => out = (f'.accepted, made) := by
  induction remaining generalizing made f with
  | zero => exact .fields_bind (.ite (fun _ => .pure rfl) fun _ => .fail _)
  | succ remaining ih =>
    refine .fields_bind (.ite (fun _ => .pure rfl) fun _ => ?_)
    unfold attempt ProbCore.Rejection.attempt
    simp only [bind_assoc]
    refine .update_bind (.host_bind fun threshold => .update_bind (.host_bind fun step => ?_))
    refine Enacts.bind ((hooks_play c threshold f.accepted).trampoline resume fuel step ?_) fun _ f' v accepted => ?_
    · exact ⟨rfl, rfl, rfl⟩
    cases v with
    | none =>
      have next := ih (made + 1) (f := f')
      rw [accepted] at next
      exact next
    | some v =>
      have next := ih (made + 1) (f := f')
      rw [accepted] at next
      exact next

theorem estimate_answers (c : Config R) (entry : κ) (s : Store) (f : Fields κ D R) :
    Answers f (estimate resume fuel c entry s) (ProbCore.Rejection.estimate resume fuel c entry s) := by
  refine .update_bind ((collect_enacts c entry s c.attempts.val 0).bind ?_)
  rintro made f' _ rfl
  exact .host_bind fun _ => .fields_bind ((Enacts.host _).imp fun _ _ _ both => both.2)

end Rejection

namespace Chain

open ProbCore.Chain (Config)

theorem walk_heedless (c : Config) (remaining step : Nat) (t : Trace κ D R) (values : List Value) (accepted : Nat) :
    Heedless Fields.arrivals (walk resume fuel c remaining step t values accepted)
      (ProbCore.Chain.walk resume fuel c remaining step t values accepted) := by
  induction remaining generalizing step t values accepted with
  | zero => exact .pure _
  | succ remaining ih =>
    refine (move_heedless t none).bind fun moved => ?_
    exact .ite ((Heedless.host _).bind fun v => ih _ _ _ _) (ih _ _ _ _)

theorem estimate_heedless (c : Config) (entry : κ) (s : Store) :
    Heedless Fields.arrivals (estimate resume fuel c entry s) (ProbCore.Chain.estimate resume fuel c entry s) := by
  refine (findStart_heedless entry s none c.startAttempts).bind fun t => ?_
  refine (walk_heedless c c.steps 0 t [] 0).bind fun kept => ?_
  exact .ite ((Heedless.host _).bind fun _ => .host _) (.host _)

end Chain

theorem advance_heedless (p : Particle κ D R) :
    Heedless Fields.arrivals (advance resume fuel p) (p.advance resume fuel) := by
  refine .ite (.pure p) ((extend_heedless p.trace _).bind fun t => ?_)
  cases t with
  | none => exact .pure _
  | some t => exact .pure _

namespace Filter

open ProbCore.Filter (Config Outcome Report)

theorem moveTrace_heedless (limit moves : Nat) (t : Trace κ D R) :
    Heedless Fields.arrivals (moveTrace resume fuel limit moves t)
      (ProbCore.Filter.moveTrace resume fuel limit moves t) := by
  induction moves generalizing t with
  | zero => exact .pure t
  | succ moves ih => exact (move_heedless t (some limit)).bind fun moved => ih moved.1

theorem rejuvenate_heedless (c : Config) (limit : Nat) (p : Particle κ D R) :
    Heedless Fields.arrivals (rejuvenate resume fuel c limit p) (ProbCore.Filter.rejuvenate resume fuel c limit p) :=
  (moveTrace_heedless limit c.moves p.trace).bind fun _ => .pure _

/-- An answer with the report that the fields keep. -/
structure Reported (arrivals : ProbCore.Cascade.Arrivals R) (answer : R × List (Particle κ D R)) (f : Fields κ D R)
    (out : Outcome κ D R) : Prop where
  answer : answer = (out.logMass, out.survivors)
  report : f.report = some out.report
  arrivals : f.arrivals = arrivals

theorem rounds_enacts (c : Config) (ps : List (Particle κ D R)) (logMass : R) (report : Report R) {f : Fields κ D R} :
    Enacts f (rounds resume steps c fuel ps logMass report)
      (ProbCore.Filter.rounds resume steps c fuel ps logMass report) (Reported f.arrivals) := by
  induction fuel generalizing f ps logMass report with
  | zero => exact .fail _
  | succ fuel ih =>
    refine Enacts.bind (Heedless.mapM advance_heedless ps f) ?_
    rintro ps f' _ ⟨rfl, kept⟩
    refine .ite (fun _ => .host_bind fun mean => .update_bind (.pure ⟨rfl, rfl, kept⟩)) fun _ => ?_
    refine .host_bind fun mean => .host_bind fun drawn => ?_
    refine .ite (fun _ => ?_) fun _ => Enacts.bind (Heedless.mapM (rejuvenate_heedless c _) drawn f') ?_
    · refine .host_bind fun _ => ?_
      rw [← kept]
      exact ih _ _ _
    · rintro ps f'' _ ⟨rfl, kept'⟩
      refine .host_bind fun _ => ?_
      rw [← kept, ← kept']
      exact ih _ _ _

theorem run_enacts (c : Config) (ps : List (Particle κ D R)) {f : Fields κ D R} :
    Enacts f (run resume fuel c ps) (ProbCore.Filter.run resume fuel c ps) (Reported f.arrivals) :=
  rounds_enacts c ps _ _

theorem outcome_heedless (c : Config) (ps : List (Particle κ D R)) :
    Heedless Fields.arrivals (outcome resume fuel c ps) (ProbCore.Filter.run resume fuel c ps) := by
  intro f
  rw [← bind_pure (ProbCore.Filter.run resume fuel c ps)]
  refine (run_enacts c ps).bind ?_
  rintro _ f' out ⟨rfl, reported, kept⟩
  refine .fields_bind (.pure ⟨?_, kept⟩)
  rw [reported]
  rfl

theorem estimate_answers (c : Config) (entry : κ) (s : Store) (f : Fields κ D R) :
    Answers f (estimate resume fuel c entry s) (ProbCore.Filter.estimate resume fuel c entry s) := by
  refine (run_enacts c _).bind ?_
  rintro _ f' out ⟨rfl, reported, _⟩
  refine .fields_bind ?_
  rw [reported]
  exact (Enacts.host _).imp fun _ _ _ both => both.2

end Filter

namespace OpeningChain

open ProbCore.OpeningChain (Config State)

omit [Score R] in
theorem complete_eq [Score R] (c : Config) (opening : Trace κ D R) :
    complete resume fuel c opening = ProbCore.OpeningChain.complete resume fuel c opening := by
  unfold complete ProbCore.OpeningChain.complete
  rw [(Filter.outcome_heedless _ _).onNew]

theorem propose_heedless (opening : Trace κ D R) :
    Heedless Fields.arrivals (propose resume fuel opening) (ProbCore.OpeningChain.propose resume fuel opening) := by
  refine .ite (.pure _) ((regenerate_heedless opening (some 1)).bind fun proposal => ?_)
  cases proposal with
  | none => exact .pure _
  | some proposal => exact .pure _

theorem startChain_heedless (c : Config) (entry : κ) (s : Store) :
    Heedless Fields.arrivals (startChain resume fuel c entry s)
      (ProbCore.OpeningChain.startChain resume fuel c entry s) := by
  have goes (remaining attempt : Nat) :
      Heedless Fields.arrivals (startChain.go resume fuel c entry s remaining attempt)
        (ProbCore.OpeningChain.startChain.go resume fuel c entry s remaining attempt) := by
    induction remaining generalizing attempt with
    | zero => exact .fail _
    | succ remaining ih =>
      refine (findStart_heedless entry s (some 1) c.startAttempts).bind fun opening => ?_
      rw [complete_eq]
      refine (Heedless.host _).bind fun completed => ?_
      cases completed with
      | none => exact (Heedless.host _).bind fun _ => ih _
      | some completed => exact .pure _
  exact goes _ _

theorem sweep_heedless (c : Config) (st : State κ D R) :
    Heedless Fields.arrivals (sweep resume fuel c st) (ProbCore.OpeningChain.sweep resume fuel c st) := by
  refine (propose_heedless st.opening).bind fun proposal => ?_
  cases proposal with
  | none => exact .pure _
  | some proposal =>
    dsimp only
    rw [complete_eq]
    refine (Heedless.host _).bind fun completed => ?_
    exact .ite (.pure _) ((Heedless.host _).bind fun u => .ite (.pure _) (.pure _))

theorem sweeps_heedless (c : Config) (remaining number : Nat) (st : State κ D R) (values : List Value)
    (accepted : Nat) :
    Heedless Fields.arrivals (sweeps resume fuel c remaining number st values accepted)
      (ProbCore.OpeningChain.sweeps resume fuel c remaining number st values accepted) := by
  induction remaining generalizing number st values accepted with
  | zero => exact .pure _
  | succ remaining ih =>
    refine (sweep_heedless c st).bind fun swept => (Heedless.host _).bind fun value => ?_
    exact (Heedless.host _).bind fun _ => ih _ _ _ _

theorem estimate_heedless (c : Config) (entry : κ) (s : Store) :
    Heedless Fields.arrivals (estimate resume fuel c entry s)
      (ProbCore.OpeningChain.estimate resume fuel c entry s) := by
  refine (startChain_heedless c entry s).bind fun st => ?_
  exact (sweeps_heedless c c.sweeps 1 st [] 0).bind fun drawn => .host _

end OpeningChain

namespace Cascade

open ProbCore.Cascade (Config Pool)

/-- A pool of the particles of a queue, with the arrivals that the fields keep. -/
def Pools (queue : Queue κ D R) (f : Fields κ D R) (pool : Pool κ D R) : Prop := pool = queue.pool f.arrivals

omit [LawfulHost σ D R] in
theorem children_enacts (c : Config) (p : Particle κ D R) (buffered : Nat) (f : Fields κ D R) :
    Enacts f (children c p buffered : Act σ κ D R _)
      (ProbCore.Cascade.children c p (ProbCore.Cascade.arrive f.arrivals p.trace.factors p.weight).1 buffered)
      fun born f' born' => born = born' ∧
        f'.arrivals = (ProbCore.Cascade.arrive f.arrivals p.trace.factors p.weight).2 := by
  unfold children arrive
  simp only [bind_assoc, pure_bind]
  refine .fields_bind (.update_bind ((Enacts.host _).imp ?_))
  rintro born _ _ ⟨rfl, same⟩
  exact ⟨same, rfl⟩

theorem process_enacts (c : Config) (p : Particle κ D R) (queue : Queue κ D R) (f : Fields κ D R) :
    Enacts f (process resume fuel c p queue)
      (ProbCore.Cascade.process resume fuel c p (queue.pool f.arrivals)) Pools := by
  unfold ProbCore.Cascade.process ProbCore.Cascade.run
  simp only [bind_assoc]
  refine Enacts.bind (advance_heedless p f) ?_
  rintro q f' _ ⟨rfl, kept⟩
  rw [← kept]
  cases q.alive with
  | false => exact .pure rfl
  | true =>
    cases q.trace.done with
    | true => exact .pure rfl
    | false =>
      refine (children_enacts c q queue.buffer.length f').bind ?_
      rintro born f'' _ ⟨rfl, arrived⟩
      refine .pure ?_
      unfold Pools Queue.pool
      rw [arrived]

theorem schedule_enacts (c : Config) (root : Particle κ D R) (queue : Queue κ D R) (roots : Nat) (f : Fields κ D R) :
    Enacts f (schedule resume steps c root fuel queue roots)
      (ProbCore.Cascade.schedule resume steps c root fuel (queue.pool f.arrivals) roots)
      fun out f' out' => out' = (out.1.pool f'.arrivals, out.2) := by
  induction fuel generalizing queue roots f with
  | zero => exact .fail _
  | succ fuel ih =>
    obtain ⟨buffer, finished⟩ := queue
    cases buffer with
    | cons p buffer =>
      refine (process_enacts c p ⟨buffer, finished⟩ f).bind ?_
      rintro queue f' _ rfl
      exact ih queue roots f'
    | nil =>
      refine .ite (fun _ => .pure rfl) fun _ => .ite (fun _ => .fail _) fun _ => ?_
      refine (process_enacts c root ⟨[], finished⟩ f).bind ?_
      rintro queue f' _ rfl
      exact ih queue (roots + 1) f'

theorem estimate_answers (c : Config) (entry : κ) (s : Store) (f : Fields κ D R) :
    Answers f (estimate resume fuel c entry s) (ProbCore.Cascade.estimate resume fuel c entry s) := by
  refine .update_bind ((schedule_enacts c _ ⟨[], []⟩ 0 _).bind ?_)
  rintro ⟨queue, roots⟩ f' _ rfl
  exact .fields_bind ((Enacts.host _).imp fun _ _ _ both => both.2)

end Cascade

/-- Whatever an instance was used for before, an estimate on it is an estimate of its strategy. -/
theorem estimate_answers (entry : κ) (s : Store) (st : Strategy R) (f : Fields κ D R) :
    Answers f (estimate resume fuel entry s st) (st.estimate resume fuel entry s) := by
  cases st with
  | enumerate c => exact Enumeration.estimate_answers c entry s f
  | rejection c => exact Rejection.estimate_answers c entry s f
  | mcmc c => exact (Chain.estimate_heedless c entry s).answers f
  | smc c => exact Filter.estimate_answers c entry s f
  | pmcmc c => exact (OpeningChain.estimate_heedless c entry s).answers f
  | asyncpf c => exact Cascade.estimate_answers c entry s f

end ProbCore.Instance
