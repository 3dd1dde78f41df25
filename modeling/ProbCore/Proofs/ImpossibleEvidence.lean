import ProbCore.Proofs.CarefulScript
import ProbCore.Proofs.Executions
import ProbCore.Proofs.FrontierContents
import ProbCore.Proofs.ScoreLaws
import ProbCore.Proofs.StrategyValues

/-! Evidence that cannot be. No strategy returns the value of an execution that absorbed an
impossible factor, or one that is no number, but for incremental rejection: after a factor that
is no number its running score compares with nothing, and all that follows is accepted. -/

namespace ProbCore

open Kernel (tolerable)

variable {σ κ D R : Type} [Host (EStateM Failure σ) D R] [Score R]

/-- A value that some strategy may give to a choice. -/
def Selectable (σ : Type) {D R : Type} [Host (EStateM Failure σ) D R] [Score R] (d : D) (v : Value) : Prop :=
  Choosable σ d v ∨ ∃ vs, Yields (Host.support d : EStateM Failure σ _) vs ∧ v ∈ vs

/-- What is tolerated up to a factor that is no number, with anything after it. -/
def Blinded (xs : List R) : Prop :=
  ∃ ys x zs, xs = ys ++ x :: zs ∧ Tolerated ys ∧ Score.isNaN x = true

/-- A complete execution that absorbed nothing but what is tolerated. -/
def Earned (resume : Resume (EStateM Failure σ) κ D R) (entry : κ) (s : Store) (v : Value) : Prop :=
  ∃ cs xs, Executes resume (Selectable σ) entry s cs xs v ∧ Tolerated xs

variable {resume : Resume (EStateM Failure σ) κ D R} {entry : κ} {s : Store} {fuel : Nat}
  {M : Marginal Value R}

theorem selectable_chooses {moving : Prop} : Kernel.Chooses moving resume (Selectable σ) entry s :=
  fun _ _ _ _ _ _ _ _ offered _ => .inl offered.choosable

theorem Kernel.Returned.earned [SoundHost σ D R] {moving : Prop} {v : Value}
    (returned : Returned moving resume entry s v) : Earned resume entry s v := by
  obtain ⟨t, made, ending⟩ := returned
  exact ⟨_, made.executes selectable_chooses ending⟩

namespace Rejection

variable {c : Config R} {threshold : R}

/-- The running score of an attempt tells what it has absorbed. -/
def Attempting (incremental : Bool) (xs : List R) (score : R) : Prop :=
  if incremental then (Score.Sunk score ∧ Tolerated xs) ∨ Blinded xs
  else tolerable score = true → Tolerated xs

variable [LawfulScore R]

omit [Host (EStateM Failure σ) D R] in
theorem Attempting.start : Attempting c.incremental [] (Score.zero : R) := by
  unfold Attempting
  split
  · exact .inl ⟨LawfulScore.zero_sunk, nofun⟩
  · exact fun _ => nofun

/-- One more factor that an attempt goes on with. -/
theorem Attempting.absorb [SoundHost σ D R] {xs : List R} {score score' : R} {k : κ} {a : Address}
    {x : R} {v : Value} (number : c.incremental = true → Score.isNaN threshold = false)
    (attempting : Attempting c.incremental xs score)
    (reacted : Yields ((handler c threshold : Handler (EStateM Failure σ) κ D R _ _).factor score s k a x)
      (.deliver score' v)) : Attempting c.incremental (xs ++ [x]) score' ∧ v = .absent := by
  simp only [handler] at reacted
  split at reacted
  next incremental =>
    rw [Attempting, if_pos incremental] at attempting ⊢
    split at reacted
    next => exact reacted.not_fail
    next low =>
      split at reacted
      next => cases reacted.pure
      next above =>
        cases reacted.pure
        refine ⟨?_, rfl⟩
        rcases attempting with ⟨sunk, tolerated⟩ | ⟨ys, y, zs, rfl, tolerated, blind⟩
        · cases seen : Score.isNaN x with
          | true => exact .inr ⟨xs, x, [], rfl, tolerated, seen⟩
          | false =>
            have below : Score.Sunk x := ⟨by simpa using low, seen⟩
            refine .inl ⟨LawfulScore.sunk_add sunk below, tolerated.concat ?_⟩
            cases impossible : Score.isImpossible x with
            | true =>
              exact absurd (LawfulScore.impossible_atMost sunk impossible (number incremental)) above
            | false => rw [tolerable, impossible, seen]; rfl
        · exact .inr ⟨ys, y, zs ++ [x], by simp, tolerated, blind⟩
  next whole =>
    rw [Attempting, if_neg whole] at attempting ⊢
    cases reacted.pure
    refine ⟨fun fine => ?_, rfl⟩
    exact (attempting (LawfulScore.tolerable_left fine)).concat (LawfulScore.tolerable_right fine)

theorem handler_exit [SoundHost σ D R] {xs : List R} {score : R} {u v : Value} (attempting : Attempting c.incremental xs score)
    (ended : Yields ((handler c threshold : Handler (EStateM Failure σ) κ D R _ _).exit score s u) (some v)) :
    v = u ∧ (Tolerated xs ∨ c.incremental = true ∧ Blinded xs) := by
  simp only [handler] at ended
  split at ended
  next incremental =>
    rw [Attempting, if_pos incremental] at attempting
    refine ⟨Option.some.inj ended.pure, ?_⟩
    rcases attempting with ⟨_, tolerated⟩ | blinded
    · exact .inl tolerated
    · exact .inr ⟨incremental, blinded⟩
  next whole =>
    rw [Attempting, if_neg whole] at attempting
    split at ended
    next => exact ended.not_fail
    next =>
      split at ended
      next above =>
        exact ⟨Option.some.inj ended.pure, .inl (attempting (LawfulScore.tolerable_of_less above))⟩
      next => cases ended.pure

/-- The value of an attempt that was accepted, with what its execution absorbed. -/
def Accepted (resume : Resume (EStateM Failure σ) κ D R) (chosen : D → Value → Prop) (entry : κ)
    (s : Store) (c : Config R) (v : Value) : Prop :=
  ∃ cs xs, Executes resume chosen entry s cs xs v ∧
    (Tolerated xs ∨ c.incremental = true ∧ Blinded xs)

variable [SoundHost σ D R] {chosen : D → Value → Prop}

theorem drive_accepted {cs : List (Address × D × Value)} {xs : List R} {score : R} {step : Step κ D R}
    {v : Value} (draws : ∀ d v, Yields (Host.draw d : EStateM Failure σ Value) v → chosen d v)
    (number : c.incremental = true → Score.isNaN threshold = false)
    (arrives : Arrives resume chosen entry s cs xs step)
    (attempting : Attempting c.incremental xs score)
    (yields : Yields (drive resume (handler c threshold) fuel score step) (some v)) :
    Accepted resume chosen entry s c v := by
  induction fuel generalizing cs xs score step with
  | zero => exact yields.not_fail
  | succ fuel ih =>
    obtain ⟨k₀, s₀, u₀, reaches, goes⟩ := arrives
    cases step with
    | exit s' u =>
      obtain ⟨rfl, earned⟩ := handler_exit attempting yields
      exact ⟨cs, xs, ⟨s', k₀, s₀, u₀, reaches, goes⟩, earned⟩
    | stray u => exact yields.not_fail
    | sample s' k a d =>
      obtain ⟨reaction, reacted, yields⟩ := Yields.bind yields
      obtain ⟨u, drawn, reacted⟩ := Yields.bind reacted
      obtain rfl := reacted.pure
      obtain ⟨next, went, yields⟩ := yields.bind
      have further := reaches.choose goes (draws d u drawn)
      exact ih ⟨k, s', u, further, went⟩ attempting yields
    | factor s' k a x =>
      obtain ⟨reaction, reacted, yields⟩ := Yields.bind yields
      cases reaction with
      | deliver score' u =>
        obtain ⟨attempting, rfl⟩ := attempting.absorb number reacted
        obtain ⟨next, went, yields⟩ := yields.bind
        exact ih ⟨k, s', _, reaches.absorb goes, went⟩ attempting yields
      | finish outcome =>
        -- An attempt that ends at a factor is not accepted.
        obtain rfl := yields.pure
        simp only [handler] at reacted
        split at reacted
        next =>
          split at reacted
          next => exact reacted.not_fail
          next =>
            split at reacted
            next => cases reacted.pure
            next => cases reacted.pure
        next => cases reacted.pure

theorem attempt_accepted {v : Value}
    (draws : ∀ d v, Yields (Host.draw d : EStateM Failure σ Value) v → chosen d v)
    (number : c.incremental = true →
      ∀ x, Yields (Host.logUniform : EStateM Failure σ R) x → Score.isNaN x = false)
    (yields : Yields (attempt resume fuel c entry s) (some v)) : Accepted resume chosen entry s c v := by
  obtain ⟨threshold, drawn, yields⟩ := Yields.bind yields
  obtain ⟨step, goes, yields⟩ := yields.bind
  have begins : Arrives resume chosen entry s [] [] step := ⟨_, _, _, .start, goes⟩
  exact drive_accepted draws (fun incremental => number incremental threshold drawn) begins .start yields

omit [LawfulScore R] in
/-- What every attempt keeps holds of what is collected in the end, which is enough. -/
theorem collect_keeps (holds : Nat → List Value → Nat → Prop)
    (kept : ∀ o made accepted count, Yields (attempt resume fuel c entry s) o → holds made accepted count →
      count < c.samples.val → holds (made + 1) (o.toList ++ accepted) (count + o.toList.length))
    {remaining made count : Nat} {accepted : List Value} {out : List Value × Nat} (before : holds made accepted count)
    (yields : Yields (collect resume fuel c entry s remaining made accepted count) out) :
    ∃ count', holds out.2 out.1 count' ∧ c.samples.val ≤ count' := by
  induction remaining generalizing made accepted count with
  | zero =>
    unfold collect at yields
    split at yields
    next enough =>
      rw [yields.pure]
      exact ⟨count, before, enough⟩
    next => exact yields.not_fail
  | succ remaining ih =>
    unfold collect at yields
    split at yields
    next enough =>
      rw [yields.pure]
      exact ⟨count, before, enough⟩
    next few =>
      obtain ⟨o, ran, yields⟩ := Yields.bind yields
      have after := kept o made accepted count ran before (Nat.lt_of_not_le few)
      cases o with
      | none => exact ih after yields
      | some v => exact ih after yields

theorem collect_accepted {remaining made count : Nat} {accepted : List Value} {out : List Value × Nat}
    (draws : ∀ d v, Yields (Host.draw d : EStateM Failure σ Value) v → chosen d v)
    (number : c.incremental = true →
      ∀ x, Yields (Host.logUniform : EStateM Failure σ R) x → Score.isNaN x = false)
    (before : ∀ v ∈ accepted, Accepted resume chosen entry s c v)
    (yields : Yields (collect resume fuel c entry s remaining made accepted count) out) :
    ∀ v ∈ out.1, Accepted resume chosen entry s c v := by
  have kept {o : Option Value} {accepted : List Value} (ran : Yields (attempt resume fuel c entry s) o)
      (before : ∀ v ∈ accepted, Accepted resume chosen entry s c v) :
      ∀ v ∈ o.toList ++ accepted, Accepted resume chosen entry s c v := by
    cases o with
    | none => exact before
    | some v => exact List.forall_mem_cons.mpr ⟨attempt_accepted draws number ran, before⟩
  obtain ⟨_, all, _⟩ := collect_keeps (fun _ accepted _ => ∀ v ∈ accepted, Accepted resume chosen entry s c v)
    (fun _ _ _ _ ran before _ => kept ran before) before yields
  exact all

theorem estimate_accepted
    (draws : ∀ d v, Yields (Host.draw d : EStateM Failure σ Value) v → chosen d v)
    (number : c.incremental = true →
      ∀ x, Yields (Host.logUniform : EStateM Failure σ R) x → Score.isNaN x = false)
    (yields : Yields (estimate resume fuel c entry s) M) :
    ∃ vs, M.Pools vs ∧ ∀ v ∈ vs, Accepted resume chosen entry s c v := by
  obtain ⟨⟨accepted, made⟩, collected, yields⟩ := Yields.bind yields
  obtain ⟨_, _, yields⟩ := Yields.bind yields
  refine ⟨accepted.reverse, Marginal.pools_ofSamples yields, fun v member => ?_⟩
  exact collect_accepted draws number (List.forall_mem_nil _) collected v (List.mem_reverse.mp member)

end Rejection

namespace Enumeration

variable {c : Config} {st st' : Search κ R}

/-- A branch of an execution that has absorbed nothing but what is tolerated. -/
def Pending (resume : Resume (EStateM Failure σ) κ D R) (entry : κ) (s : Store) (b : Branch κ R) : Prop :=
  ∃ cs xs, Reaches resume (Selectable σ) entry s cs xs b.k b.store b.value ∧ Tolerated xs

structure Searching (resume : Resume (EStateM Failure σ) κ D R) (entry : κ) (s : Store)
    (st : Search κ R) : Prop where
  pending : ∀ b ∈ st.frontier.contents, Pending resume entry s b
  earned : ∀ e ∈ st.found, Earned resume entry s e.1

variable [SoundHost σ D R]

omit [SoundHost σ D R] in
theorem fork_mem {d : D} {k : κ} {score : R} {vs : List Value} {branches : List (Branch κ R)}
    {s' : Store} (yields : Yields (fork d k s' score vs : EStateM Failure σ _) branches) :
    ∀ b ∈ branches, b.k = k ∧ b.store = s' ∧ b.value ∈ vs := by
  induction vs generalizing branches with
  | nil =>
    rw [yields.pure]
    exact nofun
  | cons v vs ih =>
    obtain ⟨lp, _, yields⟩ := Yields.bind yields
    obtain ⟨rest, forked, yields⟩ := yields.bind
    rw [yields.pure]
    intro b member
    have later (inside : b ∈ rest) : b.k = k ∧ b.store = s' ∧ b.value ∈ v :: vs := by
      obtain ⟨same, alike, listed⟩ := ih forked b inside
      exact ⟨same, alike, List.mem_cons_of_mem v listed⟩
    split at member
    next => exact later member
    next =>
      rcases List.mem_cons.mp member with rfl | member
      · exact ⟨rfl, rfl, List.mem_cons_self⟩
      · exact later member

theorem drive_searching [LawfulScore R] {cs : List (Address × D × Value)} {xs : List R} {step : Step κ D R}
    (arrives : Arrives resume (Selectable σ) entry s cs xs step) (tolerated : Tolerated xs)
    (searching : Searching resume entry s st)
    (yields : Yields (drive resume handler fuel st step) st') : Searching resume entry s st' := by
  induction fuel generalizing cs xs st step with
  | zero => exact yields.not_fail
  | succ fuel ih =>
    obtain ⟨k₀, s₀, u₀, reaches, goes⟩ := arrives
    cases step with
    | exit s' u =>
      rw [Yields.pure yields]
      refine ⟨searching.pending, List.forall_mem_cons.mpr ⟨?_, searching.earned⟩⟩
      exact ⟨cs, xs, ⟨s', k₀, s₀, u₀, reaches, goes⟩, tolerated⟩
    | stray u => exact yields.not_fail
    | sample s' k a d =>
      obtain ⟨reaction, reacted, yields⟩ := Yields.bind yields
      obtain ⟨vs, listed, reacted⟩ := Yields.bind reacted
      obtain ⟨branches, forked, reacted⟩ := reacted.bind
      obtain rfl := reacted.pure
      rw [yields.pure]
      refine ⟨fun b member => ?_, searching.earned⟩
      rcases List.mem_append.mp ((Frontier.contents_pushAll _ _).mem_iff.mp member) with new | old
      · obtain ⟨rfl, rfl, chosen⟩ := fork_mem forked b new
        exact ⟨_, xs, reaches.choose goes (.inr ⟨vs, listed, chosen⟩ : Selectable σ d b.value), tolerated⟩
      · exact searching.pending b old
    | factor s' k a x =>
      obtain ⟨reaction, reacted, yields⟩ := Yields.bind yields
      simp only [handler] at reacted
      split at reacted
      next =>
        obtain rfl := reacted.pure
        rw [yields.pure]
        exact ⟨searching.pending, searching.earned⟩
      next hopeful =>
        obtain rfl := reacted.pure
        obtain ⟨next, went, yields⟩ := yields.bind
        have fine : tolerable (st.score + x) = true := by simpa [tolerable] using hopeful
        have further := tolerated.concat (LawfulScore.tolerable_right fine)
        have moved : Searching resume entry s { st with score := st.score + x } :=
          ⟨searching.pending, searching.earned⟩
        exact ih ⟨k, s', _, reaches.absorb goes, went⟩ further moved yields

theorem explore_searching [LawfulScore R] {steps : Nat} (searching : Searching resume entry s st)
    (yields : Yields (explore resume c steps fuel st) st') : Searching resume entry s st' := by
  induction fuel generalizing st with
  | zero => exact yields.not_fail
  | succ fuel ih =>
    unfold explore at yields
    split at yields
    next =>
      rw [yields.pure]
      exact searching
    next =>
      split at yields
      next =>
        rw [yields.pure]
        exact searching
      next b rest popped =>
        obtain ⟨step, goes, yields⟩ := yields.bind
        obtain ⟨next, driven, yields⟩ := yields.bind
        have contents := Frontier.contents_pop? popped
        obtain ⟨cs, xs, reaches, tolerated⟩ :=
          searching.pending b (contents.mem_iff.mpr List.mem_cons_self)
        have others : Searching resume entry s { st with frontier := rest, score := b.score } :=
          ⟨fun b' member => searching.pending b' (contents.mem_iff.mpr (List.mem_cons_of_mem _ member)),
            searching.earned⟩
        exact ih (drive_searching ⟨_, _, _, reaches, goes⟩ tolerated others driven) yields

theorem estimate_earned [LawfulScore R] (yields : Yields (estimate resume fuel c entry s) M) :
    ∃ vs, M.Pools vs ∧ ∀ v ∈ vs, Earned resume entry s v := by
  obtain ⟨st, searched, yields⟩ := Yields.bind yields
  obtain ⟨step, goes, searched⟩ := Yields.bind searched
  obtain ⟨begun, driven, searched⟩ := searched.bind
  have empty : Searching resume entry s (⟨.empty c.traversal, Score.zero, [], 0⟩ : Search κ R) := by
    refine ⟨?_, nofun⟩
    rw [Frontier.contents_empty]
    exact List.forall_mem_nil _
  have first := drive_searching ⟨_, _, _, .start, goes⟩ (List.forall_mem_nil _) empty driven
  have searching := explore_searching first searched
  split at yields
  next => exact yields.not_fail
  next =>
    obtain ⟨_, _, yields⟩ := yields.bind
    refine ⟨_, Marginal.pools_ofLogWeights yields, fun v member => ?_⟩
    obtain ⟨e, present, rfl⟩ := List.mem_map.mp member
    exact searching.earned e (List.mem_reverse.mp present)

end Enumeration

section

/-- The program with a record of all that it has absorbed, stamped on its value. -/
def ledger (resume : Resume (EStateM Failure σ) κ D R) (stamp : List R → Value → Value) :
    Resume (EStateM Failure σ) (κ × List R) D R := fun (k, xs) s v => do
  match ← resume k s v with
  | .sample s k a d => return .sample s (k, xs) a d
  | .factor s k a x => return .factor s (k, xs ++ [x]) a x
  | .exit s u => return .exit s (stamp xs u)
  | .stray u => return .stray u

variable {chosen : D → Value → Prop} {stamp : List R → Value → Value}
  {cs : List (Address × D × Value)} {xs : List R}

omit [Host (EStateM Failure σ) D R] [Score R] in
theorem ledger_reaches {k : κ × List R} {s' : Store} {u : Value}
    (reaches : Reaches (ledger resume stamp) chosen (entry, []) s cs xs k s' u) : k.2 = xs := by
  induction reaches with
  | start => rfl
  | choose before goes choice ih =>
    obtain ⟨step, _, told⟩ := Yields.bind goes
    cases step <;> cases told.pure
    exact ih
  | absorb before goes ih =>
    obtain ⟨step, _, told⟩ := Yields.bind goes
    cases step <;> cases told.pure
    rw [← ih]

omit [Host (EStateM Failure σ) D R] [Score R] in
theorem ledger_executes {v : Value} (executes : Executes (ledger resume stamp) chosen (entry, []) s cs xs v) :
    ∃ u, v = stamp xs u := by
  obtain ⟨_, k, _, _, reaches, goes⟩ := executes
  obtain ⟨step, _, told⟩ := Yields.bind goes
  rw [← ledger_reaches reaches]
  cases step <;> cases told.pure
  exact ⟨_, rfl⟩

end

/-- Whether a strategy tests its running score at every factor. -/
def Strategy.incremental : Strategy R → Bool
  | .rejection c => c.incremental
  | _ => false

section

variable [SoundHost σ D R] [LawfulScore R]

theorem estimate_tolerates (c : Strategy R)
    (number : c.incremental = true →
      ∀ x, Yields (Host.logUniform : EStateM Failure σ R) x → Score.isNaN x = false)
    (yields : Yields (c.estimate resume fuel entry s) M) :
    ∃ vs, M.Pools vs ∧ ∀ v ∈ vs, ∃ cs xs, Executes resume (Selectable σ) entry s cs xs v ∧
      (Tolerated xs ∨ c.incremental = true ∧ Blinded xs) := by
  have all_earned (earned : ∃ vs, M.Pools vs ∧ ∀ v ∈ vs, Earned resume entry s v) :
      ∃ vs, M.Pools vs ∧ ∀ v ∈ vs, ∃ cs xs, Executes resume (Selectable σ) entry s cs xs v ∧
        (Tolerated xs ∨ c.incremental = true ∧ Blinded xs) := by
    obtain ⟨vs, pools, earned⟩ := earned
    refine ⟨vs, pools, fun v member => ?_⟩
    obtain ⟨cs, xs, executes, tolerated⟩ := earned v member
    exact ⟨cs, xs, executes, .inl tolerated⟩
  have supplied {moving : Prop} (supplies : Kernel.Supplies moving resume entry s M) :
      ∃ vs, M.Pools vs ∧ ∀ v ∈ vs, Earned resume entry s v := by
    obtain ⟨vs, pools, returned⟩ := supplies
    exact ⟨vs, pools, fun v member => (returned v member).earned⟩
  cases c with
  | enumerate c => exact all_earned (Enumeration.estimate_earned yields)
  | rejection c => exact Rejection.estimate_accepted (fun _ _ drawn => .inl (.inl drawn)) number yields
  | mcmc c => exact all_earned (supplied (Chain.estimate_supplies yields))
  | smc c => exact all_earned (supplied (Filter.estimate_supplies yields))
  | pmcmc c => exact all_earned (supplied (OpeningChain.estimate_supplies yields))
  | asyncpf c => exact all_earned (supplied (Cascade.estimate_supplies yields))

/-- The values that a strategy pools into its marginal come from executions that absorbed nothing
impossible and nothing that is no number. Incremental rejection alone accepts more: an execution
that has absorbed a factor that is no number, and whatever it absorbed after that. The second part
says the same of the very executions, of a program that keeps a ledger of them. -/
theorem impossible_evidence_rejected (c : Strategy R)
    (number : c.incremental = true →
      ∀ x, Yields (Host.logUniform : EStateM Failure σ R) x → Score.isNaN x = false) :
    (∀ M, Yields (c.estimate resume fuel entry s) M →
      ∃ vs, M.Pools vs ∧ (∀ v, v ∈ M.values ∨ v ∈ M.samples → v ∈ vs) ∧
        ∀ v ∈ vs, ∃ cs xs, Executes resume (Selectable σ) entry s cs xs v ∧
          (Tolerated xs ∨ c.incremental = true ∧ Blinded xs)) ∧
    (∀ stamp M, Yields (c.estimate (ledger resume stamp) fuel (entry, []) s) M →
      ∃ vs, M.Pools vs ∧ (∀ v, v ∈ M.values ∨ v ∈ M.samples → v ∈ vs) ∧
        ∀ v ∈ vs, ∃ xs u, v = stamp xs u ∧ (Tolerated xs ∨ c.incremental = true ∧ Blinded xs)) := by
  constructor
  · intro M yields
    obtain ⟨vs, pools, tolerates⟩ := estimate_tolerates c number yields
    exact ⟨vs, pools, fun v => pools.mem, tolerates⟩
  · intro stamp M yields
    obtain ⟨vs, pools, tolerates⟩ := estimate_tolerates c number yields
    refine ⟨vs, pools, fun v => pools.mem, fun v member => ?_⟩
    obtain ⟨cs, xs, executes, fine⟩ := tolerates v member
    obtain ⟨u, stamped⟩ := ledger_executes executes
    exact ⟨xs, u, stamped, fine⟩

end

section

/-- One factor, and then the value 1. -/
def oneFactor (x : Float) : PlainProgram Nat Unit Float where
  entry := 0
  next
    | 0, s, _ => .ok (.factor s 1 .root x)
    | _, s, _ => .ok (.exit s (.int 1))

def silent : Densities Unit Float where
  enumerable _ := true
  support _ := .ok []
  logDensity _ _ := .ok 0

noncomputable abbrev factorResume (x : Float) : Resume (EStateM Failure (Careful silent)) Nat Unit Float :=
  (oneFactor x).resume

/-- Incremental rejection until one sample is accepted, in one attempt. -/
def oneSample : Rejection.Config Float := ⟨.count 1, ⟨0, .int 0⟩, true, .count 1⟩

def onlyOne : Marginal Value Float where
  values := [.int 1]
  logProbs := [Score.zero - Score.zero]
  normalization := none
  samples := [.int 1]
  diagnostics := [("attempts", .count 1), ("acceptance_rate", .rate (Score.ofNat 1 / Score.ofNat 1))]

/-- A factor above the threshold is accepted, and it is tolerated. -/
theorem oneFactor_accepted :
    Yields ((Strategy.rejection oneSample).estimate (factorResume (-1)) 2 0 .empty) onlyOne ∧
      ∃ vs, onlyOne.Pools vs ∧ ∀ v ∈ vs, ∃ cs xs,
        Executes (factorResume (-1)) (Selectable (Careful silent)) 0 .empty cs xs v ∧
          (Tolerated xs ∨ Blinded xs) := by
  have ran : Yields ((Strategy.rejection oneSample).estimate (factorResume (-1)) 2 0 .empty) onlyOne :=
    ⟨⟨[.logUniform (-2)]⟩, ⟨[]⟩, rfl⟩
  obtain ⟨vs, pools, _, tolerated⟩ := (impossible_evidence_rejected (.rejection oneSample)
    fun _ _ drawn => Careful.logUniform_number drawn).1 onlyOne ran
  refine ⟨ran, vs, pools, fun v member => ?_⟩
  obtain ⟨cs, xs, executes, fine | ⟨_, blinded⟩⟩ := tolerated v member
  · exact ⟨cs, xs, executes, .inl fine⟩
  · exact ⟨cs, xs, executes, .inr blinded⟩

theorem oneFactor_absorbs {x : Float} {chosen : Unit → Value → Prop} {cs : List (Address × Unit × Value)}
    {xs : List Float} {k : Nat} {s : Store} {u : Value}
    (reaches : Reaches (factorResume x) chosen 0 .empty cs xs k s u) : k = 0 ∧ xs = [] ∨ x ∈ xs := by
  induction reaches with
  | start => exact .inl ⟨rfl, rfl⟩
  | @choose cs xs k _ _ _ _ _ _ _ before goes choice ih =>
    have known := Yields.lift goes
    unfold oneFactor at known
    dsimp only at known
    split at known
    all_goals cases known
  | @absorb cs xs k _ _ _ _ _ y before goes ih =>
    have known := Yields.lift goes
    unfold oneFactor at known
    dsimp only at known
    split at known
    all_goals cases known
    exact .inr (List.mem_append_right xs List.mem_cons_self)

/-- A single factor that is no number is accepted, and no execution absorbs anything else. -/
theorem blind_factor_accepted :
    Yields ((Strategy.rejection oneSample).estimate (factorResume (0 / 0)) 2 0 .empty) onlyOne ∧
      ∀ cs xs, Executes (factorResume (0 / 0)) (Selectable (Careful silent)) 0 .empty cs xs (.int 1) →
        ¬ Tolerated xs := by
  refine ⟨⟨⟨[.logUniform 0]⟩, ⟨[]⟩, rfl⟩, fun cs xs executes tolerated => ?_⟩
  obtain ⟨_, k, _, _, reaches, goes⟩ := executes
  rcases oneFactor_absorbs reaches with ⟨rfl, rfl⟩ | blind
  · cases Yields.lift goes
  · have fine := tolerated _ blind
    cases fine

end

end ProbCore
