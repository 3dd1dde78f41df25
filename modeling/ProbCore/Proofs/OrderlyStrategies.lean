import ProbCore.Proofs.ExitDiscipline

/-! The strategies, one by one, as keepers of what their executions came to. Each of them fails as
soon as an execution that it runs skips its final continuation, and its marginal is made of values
that its executions came to at that continuation. -/

namespace ProbCore

/-- All values of a marginal were come to by executions at this depth. -/
def Heard (depth : Nat) (handed : List Handed) (M : Marginal Value Float) : Prop :=
  ∀ v, v ∈ M.values ∨ v ∈ M.samples → Halted depth handed v

/-- If a trace is complete, then its execution came to the value of the trace. -/
def Trace.Honest (depth : Nat) (handed : List Handed) (t : Trace Rest Dist Float) : Prop :=
  ∀ v, t.ending = .done v → Halted depth handed v

/-- All completed executions of a search came to their values. -/
def Enumeration.Search.Honest (depth : Nat) (handed : List Handed) (st : Search Rest Float) : Prop :=
  ∀ found ∈ st.found, Halted depth handed found.1

section

variable {depth : Nat} {before handed : List Handed}

theorem Trace.Honest.later {t : Trace Rest Dist Float} (honest : t.Honest depth before)
    (more : before <:+ handed) : t.Honest depth handed :=
  fun v ending => (honest v ending).later more

theorem Trace.honest_start (entry : Rest) (s : Store) :
    (Trace.start entry s : Trace Rest Dist Float).Honest depth handed := nofun

theorem Trace.Honest.value {t : Trace Rest Dist Float} (honest : t.Honest depth handed)
    (done : t.done = true) : Halted depth handed (t.value?.getD .absent) := by
  cases ending : t.ending with
  | done v =>
    rw [Trace.value?, ending]
    exact honest v ending
  | suspended k =>
    rw [Trace.done, ending] at done
    cases done

end

namespace Chronicled

variable {α : Type} {depth : Nat} {known : List Handed} {vs : List Value}

/-- A marginal made of values that executions came to. -/
theorem Orderly.ofLogWeights {weights : List Float} {normalization : Option Float}
    {diagnostics : List (String × Measure Float)} (halted : ∀ v ∈ vs, Halted depth known v) :
    Orderly known (Heard depth)
      (Host.lift (Marginal.ofLogWeights vs weights normalization [] diagnostics)) :=
  .lift fun _ _ more made v member =>
    (halted v (Marginal.Pools.mem ⟨_, _, _, _, made, nofun⟩ member)).later more

theorem Orderly.ofSamples {normalization : Option Float} {diagnostics : List (String × Measure Float)}
    (halted : ∀ v ∈ vs, Halted depth known v) :
    Orderly known (Heard depth) (Host.lift (Marginal.ofSamples vs normalization diagnostics)) :=
  .lift fun _ _ more made v member =>
    (halted v (Marginal.Pools.mem ⟨_, _, _, _, made, fun _ inside => inside⟩ member)).later more

/-- What is asked of the host hands nothing over. -/
theorem Orderly.accepts (d : Dist) (v : Value) :
    Orderly known (fun _ _ => True) (Host.accepts d v : Chronicled Bool) :=
  .ite ((silent _).bind fun _ _ _ _ => .pure fun _ _ => trivial)
    ((silent _).bind fun _ _ _ _ => .pure fun _ _ => trivial)

theorem Orderly.draw (d : Dist) :
    Orderly known (fun _ _ => True) (Host.draw d : Chronicled Value) :=
  (silent _).bind fun _ _ _ _ => silent _

theorem Orderly.logUniform : Orderly known (fun _ _ => True) (Host.logUniform : Chronicled Float) :=
  (silent _).bind fun _ _ _ _ => .pure fun _ _ => trivial

theorem Orderly.offset : Orderly known (fun _ _ => True) (Host.offset : Chronicled Float) :=
  (silent _).bind fun _ _ _ _ => .pure fun _ _ => trivial

theorem Orderly.indexBelow (n : Nat) :
    Orderly known (fun _ _ => True) (Host.indexBelow n : Chronicled Nat) :=
  (silent _).bind fun _ _ _ _ => .pure fun _ _ => trivial

end Chronicled

open Chronicled

variable {depth fuel : Nat} {known : List Handed} {resume : Resume Chronicled Rest Dist Float}
  (resumes : ∀ k s v, Hands depth (resume k s v))

namespace Enumeration

theorem fork_orderly (d : Dist) (k : Rest) (s : Store) (score : Float) (vs : List Value) :
    Orderly known (fun _ _ => True) (fork d k s score vs : Chronicled (List (Branch Rest Float))) := by
  induction vs generalizing known with
  | nil => exact .pure fun _ _ => trivial
  | cons v vs ih =>
    exact (Orderly.silent _).bind fun _ _ _ _ => ih.bind fun _ _ _ _ => .pure fun _ _ => trivial

theorem handler_minds :
    Minds depth (Search.Honest depth) (Search.Honest depth)
      (handler : Handler Chronicled Rest Dist Float (Search Rest Float) (Search Rest Float)) where
  lasting more honest := fun found member => (honest found member).later more
  lasts more honest := fun found member => (honest found member).later more
  sample s k a d honest :=
    (Orderly.silent _).bind fun _ _ more _ => (fork_orderly d k s _ _).bind fun _ _ more' _ =>
      .pure fun _ more'' found member =>
        (honest found member).later ((more.trans more').trans more'')
  factor s k a x honest := by
    refine .ite (.pure fun _ more => ?_) (.pure fun _ more => ?_)
    · exact fun found member => (honest found member).later more
    · exact fun found member => (honest found member).later more
  exit {_ state} s v honest := by
    refine .pure fun _ more => List.forall_mem_cons.mpr ⟨?_, fun found inside => ?_⟩
    · exact Halted.later ⟨s, List.mem_cons_self⟩ more
    · exact (honest found inside).later ((List.suffix_cons _ _).trans more)

include resumes

theorem explore_orderly (c : Config) {steps : Nat} {st : Search Rest Float}
    (honest : st.Honest depth known) :
    Orderly known (Search.Honest depth) (explore resume c steps fuel st) := by
  induction fuel generalizing known st with
  | zero => exact .throw _
  | succ fuel ih =>
    rw [explore]
    refine .ite (.pure fun _ more => handler_minds.lasting more honest) ?_
    cases st.frontier.pop? with
    | none => exact .pure fun _ more => handler_minds.lasting more honest
    | some popped =>
      obtain ⟨b, frontier⟩ := popped
      have left : Search.Honest depth known { st with frontier, score := b.score } := honest
      dsimp only
      rw [← bind_assoc]
      exact (drive_orderly handler_minds resumes (resumes _ _ _) left).bind fun st _ _ found => ih found

theorem estimate_orderly (c : Config) (entry : Rest) (s : Store) :
    Orderly known (Heard depth) (estimate resume fuel c entry s) := by
  have searched : Orderly known (Search.Honest depth) (search resume fuel c entry s) := by
    have none_found : Search.Honest depth known
        (⟨.empty c.traversal, Score.zero, [], 0⟩ : Search Rest Float) := nofun
    unfold search
    dsimp only
    rw [← bind_assoc]
    exact (drive_orderly handler_minds resumes (resumes _ _ _) none_found).bind
      fun st _ _ found => explore_orderly resumes c found
  refine searched.bind fun st handed _ honest => .ite (.throw _) ?_
  refine (Orderly.silent _).bind fun _ _ more _ => .ofLogWeights fun v member => ?_
  obtain ⟨found, inside, rfl⟩ := List.mem_map.mp member
  exact (honest found (List.mem_reverse.mp inside)).later more

end Enumeration

namespace Kernel

theorem carriedOver?_orderly (old : Option (Trace Rest Dist Float))
    (tape : Recording Rest Dist Float) (a : Address) (d : Dist) :
    Orderly known (fun _ _ => True) (carriedOver? old tape a d : Chronicled (Option Value)) := by
  unfold carriedOver?
  split
  · exact .pure fun _ _ => trivial
  · exact .ite (.pure fun _ _ => trivial)
      ((Orderly.accepts _ _).bind fun _ _ _ _ => .pure fun _ _ => trivial)

/-- What a recording comes to, if anything, is honest. -/
def Recorded.Honest (depth : Nat) (handed : List Handed)
    (out : Option (Recorded Rest Dist Float)) : Prop :=
  ∀ r, out = some r → r.trace.Honest depth handed

theorem handler_minds (limit : Option Nat) (old : Option (Trace Rest Dist Float)) :
    Minds depth (fun _ _ => True) (Recorded.Honest depth)
      (handler limit old : Handler Chronicled Rest Dist Float _ _) where
  lasting _ _ := trivial
  lasts more honest := fun r same => (honest r same).later more
  sample {_ tape} s k a d _ := by
    have weighs (v : Value) (next : Float → Recording Rest Dist Float) {known : List Handed} :
        Orderly known (fun handed r => r.All (fun _ => True) (Recorded.Honest depth handed)) (do
          let lp ← Host.logDensity d v
          if Score.isImpossible lp then return .finish none
          else return .deliver (next lp) v : Chronicled (Reaction _ (Option (Recorded Rest Dist Float)))) :=
      (Orderly.silent _).bind fun _ _ _ _ => .ite (.pure fun _ _ => nofun) (.pure fun _ _ => trivial)
    refine .ite (.throw _) ((carriedOver?_orderly old tape a d).bind fun carried _ _ _ => ?_)
    cases carried with
    | some v => exact weighs v _
    | none => exact (Orderly.draw d).bind fun v _ _ _ => weighs v _
  factor {_ tape} s k a x _ := by
    refine .ite (.pure fun _ _ => nofun) ?_
    cases limit with
    | none => exact .pure fun _ _ => trivial
    | some n =>
      refine .ite (.pure fun _ _ r same => ?_) (.pure fun _ _ => trivial)
      obtain rfl := Option.some.inj same
      exact nofun
  exit {_ tape} s v _ := by
    refine .pure fun _ more r same => ?_
    obtain rfl := Option.some.inj same
    intro v' ending
    obtain rfl := Ending.done.inj ending
    exact Halted.later ⟨s, List.mem_cons_self⟩ more

theorem exitValue_orderly {t : Trace Rest Dist Float} (honest : t.Honest depth known) :
    Orderly known (Halted depth) (exitValue t : Chronicled Value) := by
  unfold exitValue
  split
  next v ending => exact .pure fun _ more => (honest v ending).later more
  next => exact .throw _

include resumes

theorem extend_orderly {t : Trace Rest Dist Float} (honest : t.Honest depth known)
    (limit : Option Nat) :
    Orderly known (fun handed out => ∀ t', out = some t' → t'.Honest depth handed)
      (extend resume fuel t limit) := by
  unfold extend
  split
  · refine .pure fun _ more t' same => ?_
    obtain rfl := Option.some.inj same
    exact honest.later more
  · dsimp only
    rw [← bind_assoc]
    refine (drive_orderly (handler_minds limit none) resumes (resumes _ _ _) trivial).bind
      fun out handed _ honest => .pure fun _ more t' same => ?_
    obtain ⟨r, rfl, rfl⟩ := Option.map_eq_some_iff.mp same
    exact (honest r rfl).later more

theorem findStart_orderly (entry : Rest) (s : Store) (limit : Option Nat) (attempts : Given Nat) :
    Orderly known (fun handed t => t.Honest depth handed)
      (findStart resume fuel entry s limit attempts) := by
  unfold findStart
  generalize 1 = attempt
  generalize attempts.val = remaining
  induction remaining generalizing known attempt with
  | zero => exact .throw _
  | succ remaining ih =>
    rw [findStart.go]
    refine (extend_orderly resumes (Trace.honest_start entry s) limit).bind fun out _ _ honest => ?_
    cases out with
    | none => exact ih _
    | some t =>
      refine .ite ((Orderly.silent _).bind fun _ _ more _ => .pure fun _ more' => ?_) (ih _)
      exact (honest t rfl).later (more.trans more')

theorem regenerate_orderly (t : Trace Rest Dist Float) (limit : Option Nat) :
    Orderly known (fun handed out => ∀ proposal, out = some proposal → proposal.1.Honest depth handed)
      (regenerate resume fuel t limit) := by
  have rejects {known : List Handed} : Orderly known
      (fun handed out => ∀ proposal, out = some proposal → proposal.1.Honest depth handed)
      (pure none : Chronicled (Option (Trace Rest Dist Float × Float))) := .pure fun _ _ => nofun
  unfold regenerate
  refine .ite rejects ((Orderly.indexBelow _).bind fun i _ _ _ => ?_)
  split
  · exact rejects
  · refine (Orderly.draw _).bind fun value _ _ _ => (Orderly.silent _).bind fun lp _ _ _ =>
      .ite rejects ?_
    dsimp only
    rw [← bind_assoc]
    refine (drive_orderly (handler_minds limit (some t)) resumes (resumes _ _ _) trivial).bind
      fun out handed _ honest => ?_
    cases out with
    | none => exact rejects
    | some new =>
      refine .pure fun _ more proposal same => ?_
      obtain rfl := Option.some.inj same
      exact (honest new rfl).later more

theorem move_orderly {t : Trace Rest Dist Float} (honest : t.Honest depth known)
    (limit : Option Nat) :
    Orderly known (fun handed out => out.1.Honest depth handed) (move resume fuel t limit) := by
  refine (regenerate_orderly resumes t limit).bind fun out handed more proposed => ?_
  have stays {known' : List Handed} (more : known <:+ known') :
      Orderly known' (fun handed out => out.1.Honest depth handed)
        (pure (t, false) : Chronicled (Trace Rest Dist Float × Bool)) :=
    .pure fun _ more' => honest.later (more.trans more')
  cases out with
  | none => exact stays more
  | some proposal =>
    refine Orderly.logUniform.bind fun _ _ more' _ => .ite (.pure fun _ more'' => ?_)
      (stays (more.trans more'))
    exact (proposed _ rfl).later (more'.trans more'')

end Kernel

namespace Chain

include resumes

theorem walk_orderly (c : Config) {remaining step accepted : Nat} {t : Trace Rest Dist Float}
    {values : List Value} (honest : t.Honest depth known) (before : ∀ v ∈ values, Halted depth known v) :
    Orderly known (fun handed out => ∀ v ∈ out.1, Halted depth handed v)
      (walk resume fuel c remaining step t values accepted) := by
  induction remaining generalizing known step accepted t values with
  | zero => exact .pure fun _ more v member => (before v member).later more
  | succ remaining ih =>
    rw [walk]
    refine (Kernel.move_orderly resumes honest none).bind fun out _ more honest => ?_
    have before {handed : List Handed} (more : known <:+ handed) : ∀ v ∈ values, Halted depth handed v :=
      fun v member => (before v member).later more
    refine .ite ((Kernel.exitValue_orderly honest).bind fun v _ more' halted => ?_) ?_
    · exact ih (honest.later more') (List.forall_mem_cons.mpr ⟨halted, before (more.trans more')⟩)
    · exact ih honest (before more)

theorem estimate_orderly (c : Config) (entry : Rest) (s : Store) :
    Orderly known (Heard depth) (estimate resume fuel c entry s) := by
  refine (Kernel.findStart_orderly resumes entry s none c.startAttempts).bind fun t _ _ honest => ?_
  refine (walk_orderly resumes c honest (List.forall_mem_nil _)).bind fun out handed _ halted => ?_
  have concludes {handed' : List Handed} (more : handed <:+ handed') :
      Orderly handed' (Heard depth) (Host.lift (Marginal.ofSamples out.1.reverse none
        [("acceptance_rate", .rate (Score.ofNat out.2 / Score.ofNat c.steps))])) :=
    .ofSamples fun v member => (halted v (List.mem_reverse.mp member)).later more
  exact .ite ((Orderly.silent _).bind fun _ _ more _ => concludes more) (concludes List.suffix_rfl)

end Chain

/-- A complete execution with its value. -/
def Particle.Complete (depth : Nat) (handed : List Handed) (p : Particle Rest Dist Float) : Prop :=
  p.trace.Honest depth handed ∧ p.trace.done = true

theorem Particle.Complete.later {p : Particle Rest Dist Float} {before handed : List Handed}
    (complete : p.Complete depth before) (more : before <:+ handed) : p.Complete depth handed :=
  ⟨complete.1.later more, complete.2⟩

theorem Particle.advance_orderly (resumes : ∀ k s v, Hands depth (resume k s v))
    {p : Particle Rest Dist Float} (honest : p.trace.Honest depth known) :
    Orderly known (fun handed q => q.trace.Honest depth handed) (p.advance resume fuel) := by
  refine .ite (.pure fun _ more => honest.later more) ?_
  refine (Kernel.extend_orderly resumes honest _).bind fun out _ more extended => ?_
  cases out with
  | none => exact .pure fun _ more' => honest.later (more.trans more')
  | some t => exact .pure fun _ more' => (extended t rfl).later more'

/-- Only members are selected. -/
theorem Particle.select_orderly (method : Resampling) (weights : List Float) (n : Nat) :
    Orderly known (fun _ indices => method = .multinomial → ∀ i ∈ indices, i < weights.length)
      (Particle.select method weights n : Chronicled (List Nat)) := by
  cases method with
  | multinomial => exact .quiet fun _ yields _ => SoundHost.selection_inside yields
  | systematic => exact Orderly.offset.bind fun _ _ _ _ => .lift fun _ _ _ _ => nofun

namespace Filter

theorem resample_orderly (c : Config) {ps : List (Particle Rest Dist Float)}
    (honest : ∀ p ∈ ps, p.trace.Honest depth known) :
    Orderly known (fun handed qs => ∀ q ∈ qs, q.trace.Honest depth handed)
      (resample c ps : Chronicled (List (Particle Rest Dist Float))) := by
  refine (Particle.select_orderly _ _ _).bind fun indices _ more _ => .pure fun _ more' q member => ?_
  obtain ⟨i, _, found⟩ := List.mem_filterMap.mp member
  obtain ⟨p, inside, rfl⟩ := Option.map_eq_some_iff.mp found
  exact (honest p (List.mem_of_getElem? inside)).later (more.trans more')

include resumes

theorem moveTrace_orderly {limit moves : Nat} {t : Trace Rest Dist Float}
    (honest : t.Honest depth known) :
    Orderly known (fun handed t' => t'.Honest depth handed) (moveTrace resume fuel limit moves t) := by
  induction moves generalizing known t with
  | zero => exact .pure fun _ more => honest.later more
  | succ moves ih =>
    exact (Kernel.move_orderly resumes honest (some limit)).bind fun _ _ _ honest => ih honest

theorem moveAll_orderly (c : Config) {limit : Nat} {ps : List (Particle Rest Dist Float)}
    (honest : ∀ p ∈ ps, p.trace.Honest depth known) :
    Orderly known (fun handed qs => ∀ q ∈ qs, q.trace.Honest depth handed)
      (moveAll resume fuel c limit ps) := by
  refine .ite (.pure fun _ more p member => (honest p member).later more) ?_
  refine .mapM (fun more honest => honest.later more) fun p member => ?_
  exact (moveTrace_orderly resumes (honest p member)).bind fun _ _ _ honest =>
    .pure fun _ more => honest.later more

theorem rounds_orderly (c : Config) {steps : Nat} {ps : List (Particle Rest Dist Float)} {mass : Float}
    {report : Report Float} (honest : ∀ p ∈ ps, p.trace.Honest depth known) :
    Orderly known (fun handed out => ∀ p ∈ out.survivors, p.Complete depth handed)
      (rounds resume steps c fuel ps mass report) := by
  induction fuel generalizing known ps mass report with
  | zero => exact .throw _
  | succ fuel ih =>
    rw [rounds_succ]
    refine Orderly.bind (.mapM (fun more honest => honest.later more) fun p member =>
      Particle.advance_orderly resumes (honest p member)) fun qs _ _ honest => ?_
    have weighs {known : List Handed} : Orderly known (fun _ _ => True)
        (Host.lift (Particle.logMeanWeight qs) : Chronicled Float) := .lift fun _ _ _ _ => trivial
    split
    next finished =>
      refine weighs.bind fun _ _ more _ => .pure fun _ more' p member => ?_
      obtain ⟨present, alive⟩ := List.mem_filter.mp member
      exact ⟨(honest p present).later (more.trans more'),
        p.done_of_finished (List.all_eq_true.mp finished p present) alive⟩
    next =>
      refine weighs.bind fun _ _ more _ => ?_
      refine (resample_orderly c fun q member => (honest q member).later more).bind fun _ _ _ honest => ?_
      refine (moveAll_orderly resumes c honest).bind fun _ _ _ honest => ?_
      exact (Orderly.silent _).bind fun _ _ more _ => ih fun q member => (honest q member).later more

theorem run_orderly (c : Config) {count : Nat} {t : Trace Rest Dist Float}
    (honest : t.Honest depth known) :
    Orderly known (fun handed out => ∀ p ∈ out.survivors, p.Complete depth handed)
      (run resume fuel c (List.replicate count ⟨t, Score.zero⟩)) := by
  refine rounds_orderly resumes c fun p member => ?_
  obtain rfl := List.eq_of_mem_replicate member
  exact honest

theorem estimate_orderly (c : Config) (entry : Rest) (s : Store) :
    Orderly known (Heard depth) (estimate resume fuel c entry s) := by
  refine (run_orderly resumes c (Trace.honest_start entry s)).bind fun out _ _ complete =>
    .ofLogWeights fun v member => ?_
  obtain ⟨p, present, rfl⟩ := List.mem_map.mp member
  exact (complete p present).1.value (complete p present).2

end Filter

namespace OpeningChain

/-- An honest opening with a population of complete executions. -/
structure State.Honest (depth : Nat) (handed : List Handed) (st : State Rest Dist Float) : Prop where
  opening : st.opening.Honest depth handed
  population : ∀ p ∈ st.population, p.Complete depth handed

theorem State.Honest.later {st : State Rest Dist Float} {before handed : List Handed}
    (honest : st.Honest depth before) (more : before <:+ handed) : st.Honest depth handed :=
  ⟨honest.opening.later more, fun p member => (honest.population p member).later more⟩

theorem drawValue_orderly {population : List (Particle Rest Dist Float)}
    (complete : ∀ p ∈ population, p.Complete depth known) :
    Orderly known (Halted depth) (drawValue population : Chronicled Value) := by
  refine (Particle.select_orderly .multinomial _ _).bind fun indices _ more inside => ?_
  cases indices with
  | nil => exact .throw _
  | cons i rest =>
    have inside := inside rfl i List.mem_cons_self
    rw [List.length_map] at inside
    obtain ⟨honest, done⟩ := complete _ (List.getElem_mem inside)
    dsimp only
    rw [List.getElem?_eq_getElem inside]
    exact .pure fun _ more' => (honest.value done).later (more.trans more')

include resumes

theorem complete_orderly (c : Config) {opening : Trace Rest Dist Float}
    (honest : opening.Honest depth known) :
    Orderly known (fun handed out => ∀ p ∈ out.2, p.Complete depth handed)
      (complete resume fuel c opening) :=
  (Filter.run_orderly resumes c.filter honest).nested.bind fun _ _ _ complete =>
    .pure fun _ more p member => (complete p member).later more

theorem propose_orderly {opening : Trace Rest Dist Float} (honest : opening.Honest depth known) :
    Orderly known (fun handed out => ∀ proposal, out = some proposal → proposal.1.Honest depth handed)
      (propose resume fuel opening) := by
  refine .ite (.pure fun _ more proposal same => ?_) ?_
  · obtain rfl := Option.some.inj same
    exact honest.later more
  · refine (Kernel.regenerate_orderly resumes opening (some 1)).bind fun out _ _ proposed => ?_
    cases out with
    | none => exact .pure fun _ _ => nofun
    | some proposal =>
      refine .pure fun _ more proposal' same => ?_
      obtain rfl := Option.some.inj same
      exact (proposed proposal rfl).later more

theorem startChain_orderly (c : Config) (entry : Rest) (s : Store) :
    Orderly known (fun handed st => st.Honest depth handed) (startChain resume fuel c entry s) := by
  unfold startChain
  generalize 1 = attempt
  generalize c.startAttempts.val = remaining
  induction remaining generalizing known attempt with
  | zero => exact .throw _
  | succ remaining ih =>
    rw [startChain.go]
    refine (Kernel.findStart_orderly resumes entry s (some 1) c.startAttempts).bind
      fun opening _ _ honest => ?_
    refine (complete_orderly resumes c honest).unlessDegenerate.bind fun out _ more completed => ?_
    cases out with
    | none => exact (Orderly.silent _).bind fun _ _ _ _ => ih _
    | some result =>
      exact .pure fun _ more' => ⟨honest.later (more.trans more'), fun p member =>
        (completed result rfl p member).later more'⟩

theorem sweep_orderly (c : Config) {st : State Rest Dist Float} (honest : st.Honest depth known) :
    Orderly known (fun handed out => out.1.Honest depth handed) (sweep resume fuel c st) := by
  have stays {known' : List Handed} (more : known <:+ known') :
      Orderly known' (fun handed out => out.1.Honest depth handed)
        (pure (st, false) : Chronicled (State Rest Dist Float × Bool)) :=
    .pure fun _ more' => honest.later (more.trans more')
  refine (propose_orderly resumes honest.opening).bind fun out handed more proposed => ?_
  cases out with
  | none => exact stays more
  | some proposal =>
    have opened := proposed proposal rfl
    refine (complete_orderly resumes c opened).unlessDegenerate.bind
      fun completed handed' more' complete => ?_
    have survivors : ∀ p ∈ (completed.getD (Score.impossible, [])).2, p.Complete depth handed' := by
      cases completed with
      | none => exact nofun
      | some result => exact complete result rfl
    refine .ite (stays (more.trans more')) (Orderly.logUniform.bind fun _ _ more'' _ => .ite ?_ ?_)
    · exact .pure fun _ last => ⟨(opened.later more').later (more''.trans last), fun p member =>
        (survivors p member).later (more''.trans last)⟩
    · exact stays ((more.trans more').trans more'')

theorem sweeps_orderly (c : Config) {remaining number accepted : Nat} {st : State Rest Dist Float}
    {values : List Value} (honest : st.Honest depth known) (before : ∀ v ∈ values, Halted depth known v) :
    Orderly known (fun handed out => ∀ v ∈ out.1, Halted depth handed v)
      (sweeps resume fuel c remaining number st values accepted) := by
  induction remaining generalizing known number accepted st values with
  | zero => exact .pure fun _ more v member => (before v member).later more
  | succ remaining ih =>
    refine (sweep_orderly resumes c honest).bind fun out _ more honest => ?_
    refine (drawValue_orderly honest.population).bind fun v _ more' halted => ?_
    refine (Orderly.silent _).bind fun _ _ more'' _ => ih (honest.later (more'.trans more'')) ?_
    refine List.forall_mem_cons.mpr ⟨halted.later more'', fun v member => ?_⟩
    exact (before v member).later ((more.trans more').trans more'')

theorem estimate_orderly (c : Config) (entry : Rest) (s : Store) :
    Orderly known (Heard depth) (estimate resume fuel c entry s) := by
  refine (startChain_orderly resumes c entry s).bind fun st _ _ honest => ?_
  refine (sweeps_orderly resumes c honest (List.forall_mem_nil _)).bind fun out _ _ halted => ?_
  exact .ofSamples fun v member => halted v (List.mem_reverse.mp member)

end OpeningChain

namespace Cascade

/-- Honest particles wait, and the finished ones are complete. -/
structure Pool.Honest (depth : Nat) (handed : List Handed) (pool : Pool Rest Dist Float) : Prop where
  buffer : ∀ p ∈ pool.buffer, p.trace.Honest depth handed
  finished : ∀ p ∈ pool.finished, p.Complete depth handed

theorem Pool.Honest.later {pool : Pool Rest Dist Float} {before handed : List Handed}
    (honest : pool.Honest depth before) (more : before <:+ handed) : pool.Honest depth handed :=
  ⟨fun p member => (honest.buffer p member).later more,
    fun p member => (honest.finished p member).later more⟩

theorem children_orderly (c : Config) (p : Particle Rest Dist Float) (mean : Float) (buffered : Nat) :
    Orderly known (fun _ born => ∀ q ∈ born, q.trace = p.trace)
      (children c p mean buffered : Chronicled (List (Particle Rest Dist Float))) := by
  refine .ite (Orderly.logUniform.bind fun _ _ _ _ => .pure fun _ _ q member => ?_)
    (Orderly.bind (.lift fun _ _ _ _ => trivial) fun _ _ _ _ => .pure fun _ _ q member => ?_)
  · split at member
    · obtain rfl := List.mem_singleton.mp member
      rfl
    · cases member
  · obtain rfl := List.eq_of_mem_replicate member
    rfl

/-- What becomes of an honest particle. -/
def Fate.Honest (depth : Nat) (handed : List Handed) : Fate Rest Dist Float → Prop
  | .lost => True
  | .finished p => p.Complete depth handed
  | .arrived p => p.trace.Honest depth handed

include resumes

theorem run_orderly {p : Particle Rest Dist Float} (honest : p.trace.Honest depth known) :
    Orderly known (Fate.Honest depth) (run resume fuel p) := by
  refine (Particle.advance_orderly resumes honest).bind fun q _ _ honest => .ite ?_ ?_
  · exact .pure fun _ _ => trivial
  · split
    next done => exact .pure fun _ more => ⟨honest.later more, done⟩
    next => exact .pure fun _ more => honest.later more

theorem process_orderly (c : Config) {p : Particle Rest Dist Float} {pool : Pool Rest Dist Float}
    (honest : p.trace.Honest depth known) (pooled : pool.Honest depth known) :
    Orderly known (fun handed pool' => pool'.Honest depth handed)
      (process resume fuel c p pool) := by
  refine (run_orderly resumes honest).bind fun fate _ more honest => ?_
  have pooled := pooled.later more
  cases fate with
  | lost => exact .pure fun _ more => pooled.later more
  | finished q =>
    refine .pure fun _ more => ⟨(pooled.later more).buffer, List.forall_mem_cons.mpr ⟨?_, ?_⟩⟩
    · exact honest.later more
    · exact (pooled.later more).finished
  | arrived q =>
    refine (children_orderly c q _ _).bind fun born _ more shared => .pure fun _ more' => ?_
    have pooled := pooled.later (more.trans more')
    refine ⟨fun p member => ?_, pooled.finished⟩
    rcases List.mem_append.mp member with new | old
    · rw [shared p (List.mem_reverse.mp new)]
      exact honest.later (more.trans more')
    · exact pooled.buffer p old

theorem schedule_orderly (c : Config) {steps roots : Nat} {root : Particle Rest Dist Float}
    {pool : Pool Rest Dist Float} (honest : root.trace.Honest depth known)
    (pooled : pool.Honest depth known) :
    Orderly known (fun handed out => out.1.Honest depth handed)
      (schedule resume steps c root fuel pool roots) := by
  induction fuel generalizing known pool roots with
  | zero => exact .throw _
  | succ fuel ih =>
    unfold schedule
    split
    next p buffer waiting =>
      have inside := pooled.buffer
      rw [waiting] at inside
      obtain ⟨first, others⟩ := List.forall_mem_cons.mp inside
      have rest : Pool.Honest depth known { pool with buffer } := ⟨others, pooled.finished⟩
      exact (process_orderly resumes c first rest).bind fun _ _ more pooled =>
        ih (honest.later more) pooled
    next =>
      refine .ite (.pure fun _ more => pooled.later more) (.ite (.throw _) ?_)
      exact (process_orderly resumes c honest pooled).bind fun _ _ more pooled =>
        ih (honest.later more) pooled

theorem estimate_orderly (c : Config) (entry : Rest) (s : Store) :
    Orderly known (Heard depth) (estimate resume fuel c entry s) := by
  refine (schedule_orderly resumes c (Trace.honest_start entry s)
    ⟨List.forall_mem_nil _, List.forall_mem_nil _⟩).bind fun out _ _ pooled => ?_
  refine (Orderly.silent _).bind fun _ _ more _ => .ofLogWeights fun v member => ?_
  obtain ⟨p, present, rfl⟩ := List.mem_map.mp member
  obtain ⟨honest, done⟩ := pooled.finished p (List.mem_reverse.mp present)
  exact (honest.value done).later more

end Cascade

namespace Rejection

/-- An attempt that comes to a value came to its final continuation with it. -/
def Attempted (since : List Handed) (depth : Nat) (handed : List Handed) (out : Option Value) : Prop :=
  ∀ v, out = some v → HaltedAfter since depth handed v

theorem handler_minds (c : Config Float) (threshold : Float) (since : List Handed) :
    Minds depth (fun handed _ => since <:+ handed) (Attempted since depth)
      (handler c threshold : Handler Chronicled Rest Dist Float Float (Option Value)) where
  lasting more after := after.trans more
  lasts more halted := fun v same => (halted v same).later more
  sample s k a d after := (Orderly.draw d).bind fun _ _ more _ => .pure fun _ more' =>
    after.trans (more.trans more')
  factor s k a x after := by
    refine .ite (.ite (.throw _) (.ite ?_ ?_)) ?_
    · exact .pure fun _ _ => nofun
    · exact .pure fun _ more => after.trans more
    · exact .pure fun _ more => after.trans more
  exit {earlier score} s v after := by
    have accepts : Orderly (⟨depth, .exit s v⟩ :: earlier) (Attempted since depth)
        (pure (some v) : Chronicled (Option Value)) := .pure fun _ more v' same => by
      obtain rfl := Option.some.inj same
      exact ⟨s, earlier, after, more⟩
    exact .ite accepts (.ite (.throw _) (.ite accepts (.pure fun _ _ => nofun)))

include resumes

theorem attempt_orderly (c : Config Float) (entry : Rest) (s : Store) (since : List Handed) :
    Orderly since (Attempted since depth) (attempt resume fuel c entry s) :=
  Orderly.logUniform.bind fun threshold _ more _ =>
    drive_orderly (handler_minds c threshold since) resumes (resumes _ _ _) more

theorem collect_orderly (c : Config Float) (entry : Rest) (s : Store) {remaining made count : Nat}
    {accepted : List Value} (before : ∀ v ∈ accepted, Halted depth known v) :
    Orderly known (fun handed out => ∀ v ∈ out.1, Halted depth handed v)
      (collect resume fuel c entry s remaining made accepted count) := by
  induction remaining generalizing known made count accepted with
  | zero =>
    unfold collect
    exact .ite (.pure fun _ more v member => (before v member).later more) (.throw _)
  | succ remaining ih =>
    unfold collect
    refine .ite (.pure fun _ more v member => (before v member).later more) ?_
    refine (attempt_orderly resumes c entry s known).bind fun outcome _ more halted => ?_
    cases outcome with
    | none => exact ih fun v member => (before v member).later more
    | some v =>
      refine ih (List.forall_mem_cons.mpr ⟨(halted v rfl).halted, fun v member => ?_⟩)
      exact (before v member).later more

theorem estimate_orderly (c : Config Float) (entry : Rest) (s : Store) :
    Orderly known (Heard depth) (estimate resume fuel c entry s) := by
  refine (collect_orderly resumes c entry s (List.forall_mem_nil _)).bind fun out _ _ halted => ?_
  refine (Orderly.silent _).bind fun _ _ more _ => .ofSamples fun v member => ?_
  exact (halted v (List.mem_reverse.mp member)).later more

end Rejection

/-- Every strategy fails when an execution skips its final continuation, and returns values that its
executions came to. -/
theorem Strategy.estimate_orderly (resumes : ∀ k s v, Hands depth (resume k s v))
    (strategy : Strategy Float) (entry : Rest) (s : Store) :
    Orderly known (Heard depth) (strategy.estimate resume fuel entry s) := by
  cases strategy with
  | enumerate c => exact Enumeration.estimate_orderly resumes c entry s
  | rejection c => exact Rejection.estimate_orderly resumes c entry s
  | mcmc c => exact Chain.estimate_orderly resumes c entry s
  | smc c => exact Filter.estimate_orderly resumes c entry s
  | pmcmc c => exact OpeningChain.estimate_orderly resumes c entry s
  | asyncpf c => exact Cascade.estimate_orderly resumes c entry s

end ProbCore
