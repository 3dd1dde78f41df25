import ProbCore.Proofs.WatchedRuns

/-! Strategies are installed and removed like calls. Whatever an estimate does, and however it
ends, it leaves the strategies as it found them, and while it is under way every step of the
program goes to the innermost strategy. An inference inside a program therefore takes nothing
from the strategy around it but, at most, half of its key. -/

namespace ProbCore

/-- The same strategies, up to the key and the picks of the one in charge. -/
def SameStrategies (before after : List Active) : Prop :=
  after.modifyHead Active.withoutKey = before.modifyHead Active.withoutKey

/-- What came of a watched computation, without what was observed. -/
def unwatched {α : Type} :
    EStateM.Result Failure Watched α → EStateM.Result Failure World α
  | .ok a x => .ok a x.world
  | .error e x => .error e x.world

section

variable {α β : Type} {root : Random.Key} {enclosing : List Active}

theorem unwatched_eq_of_agree {index : List Active × List Identity}
    {r : EStateM.Result Failure Watched α} {r' : EStateM.Result Failure World α}
    (agree : (beside root enclosing).Agree index id r r') : unwatched r = r' := by
  cases r <;> cases r'
  · obtain ⟨rfl, rfl, _⟩ := agree
    rfl
  · cases agree
  · cases agree
  · obtain ⟨moved, rfl, _⟩ := agree
    obtain rfl := moved.eq_of_id
    rfl

theorem sound_of_agree {top : List Active} {handlers : List Identity} {φ : α → β}
    {r : EStateM.Result Failure Watched α} {r' : EStateM.Result Failure World β}
    (agree : (beside root enclosing).Agree (top, handlers) φ r r') :
    Sound root enclosing top (ended r) ∧ (ended r).world = ended r' :=
  have holds := agree.holds
  ⟨holds.2.1, holds.1⟩

/-- A watch begins in order, with whatever strategies are installed. -/
theorem sound_start (root : Random.Key) (w : World) : Sound root w.strategies [] (.start w) where
  strategies := rfl
  handlers := rfl
  held := .nil
  spent := nofun
  disjoint l member := by
    rcases List.mem_cons.mp member with rfl | member
    · exact .nil
    · cases member
  handed := nofun

end

namespace Machine

variable {cx : Context} {fuel : Nat}

variable (cx fuel) in
theorem estimate_agree (i : Inference) (s : Store) (root : Random.Key)
    (given : ∀ key, i.active.key = some key → key = root) (w : World) :
    (beside root w.strategies).Agree ([], w.strategies.map Active.identity) id
      (Watch.estimate cx fuel i s (.start w))
      (Run.installed i.active (i.strategy.estimate (resume cx fuel) fuel i.entry s) w) := by
  refine install_agree ?_ (sound_start root w) ⟨?_, ?_⟩
  · exact i.strategy.estimate_mirrors (watching_serves root w.strategies)
      (Watch.resumes cx root w.strategies fuel) fuel i.entry s
  · cases held : i.active.key with
    | none => exact fun _ => rfl
    | some key => exact congrArg some (given key held)
  · cases i.active.key with
    | none => exact .nil
    | some key => exact List.pairwise_singleton Apart []

/-- An estimate under a strategy that is installed for it leaves the strategies as they were,
whether it succeeds or fails. -/
theorem installed_strategies (cx : Context) (fuel : Nat) (i : Inference) (s : Store) (w : World) :
    (ended (Run.installed i.active
      (i.strategy.estimate (resume cx fuel) fuel i.entry s) w)).strategies = w.strategies := by
  have agreed := estimate_agree cx fuel i s (i.active.key.getD (.ofSeed 0))
    (fun key held => by rw [held]; rfl) w
  obtain ⟨sound, same⟩ := sound_of_agree agreed
  rw [← same]
  exact sound.strategies

theorem parted_same (key : Option Random.Key) (strategies : List Active) :
    SameStrategies strategies (parted key strategies) := by
  match strategies with
  | [] => rfl
  | ⟨_, none, _, _⟩ :: _ => cases key <;> rfl
  | ⟨_, some _, _, _⟩ :: _ => cases key <;> rfl

/-- An inference that comes to an answer has taken half of the key of the strategy in charge, if
it was given none and there was one, and has changed nothing else about the strategies. -/
theorem inferAt_strategies {c : InferCall} {s : Store} {m : Marginal Value Float} {w w' : World}
    (completed : inferAt cx fuel c s w = .ok m w') : w'.strategies = parted c.key w.strategies := by
  rw [inferAt, prepare_eq, bind_assoc] at completed
  obtain ⟨method, _, chosen, completed⟩ := bind_eq_ok.mp completed
  obtain ⟨i, prepared, settled, completed⟩ := bind_eq_ok.mp completed
  have restored := installed_strategies cx fuel i s prepared
  rw [show Run.installed _ _ prepared = _ from completed] at restored
  obtain rfl := Run.lift_leaves chosen
  rw [bind_of_ok (keyFor_eq c.key _)] at settled
  obtain ⟨_, _, rfl⟩ := ready_eq_ok settled
  exact restored

theorem keyFor_spares (key : Option Random.Key) :
    Run.Spares Active.withoutKey (keyFor key) := by
  intro w
  rw [keyFor_eq]
  exact ⟨parted_same key w.strategies, List.suffix_rfl⟩

theorem prepare_spares (a : Address) (function method : Value) (key : Option Random.Key)
    (options : Options) (picks : Option (List Value)) :
    Run.Spares Active.withoutKey (prepare a function method key options picks) := by
  rw [prepare_eq]
  exact (Run.Spares.lift _).bind fun _ => (keyFor_spares key).bind fun _ =>
    ready_spares _ _ _ _ _ _

theorem inferAt_same (c : InferCall) (s : Store) (w : World) :
    SameStrategies w.strategies (ended (inferAt cx fuel c s w)).strategies := by
  have spared := (prepare_spares c.place c.function c.method c.key c.options none w).strategies
  unfold inferAt
  cases ran : prepare c.place c.function c.method c.key c.options none w with
  | ok i w' =>
    rw [ran] at spared
    rw [bind_of_ok ran, installed_strategies]
    exact spared
  | error e w' =>
    rw [ran] at spared
    rw [bind_of_error ran]
    exact spared

/-- What is mirrored under watch installs and removes nothing. -/
theorem same_of_watching {α β : Type} {φ : α → β} {act : Watch α} {act' : Run β} {head : Active}
    (mirrors : ∀ root enclosing, Mirrors (watching root enclosing) φ act act') {w : World}
    {rest : List Active} (charged : w.strategies = head :: rest) :
    SameStrategies w.strategies (ended (act' w)).strategies := by
  -- A watch that begins with the strategy in charge counted among its own.
  have sound : Sound (head.key.getD (.ofSeed 0)) rest [head]
      { Watched.start w with ledger.held := [head.key.map fun _ => []] } := by
    refine ⟨charged, rfl, .cons ?_ .nil, nofun, ?_, nofun⟩
    · cases held : head.key with
      | none => exact fun _ => rfl
      | some key => rfl
    · intro l member
      rcases List.mem_cons.mp member with rfl | member
      · cases head.key with
        | none => exact .nil
        | some key => exact List.pairwise_singleton Apart []
      · cases member
  have agreed := mirrors _ rest ([], w.strategies.map Active.identity) _ w ⟨head, rfl, sound, rfl⟩
  obtain ⟨head', world, sound', handlers⟩ := agreed.holds
  have identities := sound'.handlers
  rw [handlers, sound'.strategies, charged] at identities
  have identity : head'.identity = head.identity := List.head_eq_of_cons_eq identities
  rw [← world, sound'.strategies, charged]
  obtain ⟨_, _, _, _⟩ := head
  obtain ⟨_, _, _, _⟩ := head'
  cases identity
  rfl

/-- The run of an inner strategy inside an opening chain, caught if it loses all weight. -/
theorem retried_same (c : OpeningChain.Config) (opening : Trace Rest Dist Float) (w : World) :
    SameStrategies w.strategies (ended (Host.unlessDegenerate
      (OpeningChain.complete (resume cx fuel) fuel c opening) w)).strategies := by
  cases charged : w.strategies with
  | nil =>
    have refused : Run.current w = .error (.inference .noStrategy) w := by
      obtain ⟨_, _⟩ := w
      subst charged
      rfl
    have failed : OpeningChain.complete (resume cx fuel) fuel c opening w =
        .error (.inference .noStrategy) w := bind_of_error (bind_of_error refused)
    change SameStrategies [] (ended (Run.tryDegenerate _ w)).strategies
    rw [Run.tryDegenerate, failed]
    exact congrArg (List.modifyHead Active.withoutKey) charged
  | cons head rest =>
    rw [← charged]
    have mirrored (root : Random.Key) (enclosing : List Active) :
        Mirrors (watching root enclosing) (fun (x, ps) => (x, ps.map (Particle.relabel .unmoved)))
          (OpeningChain.complete (Watch.resume cx fuel) fuel c opening)
          (OpeningChain.complete (resume cx fuel) fuel c opening) := by
      have mirrored := tracks_single.mp (OpeningChain.complete_tracks
        ((Watch.resumes cx root enclosing fuel).along (watching_serves root enclosing) fuel) c opening)
      have still : @Trace.relabel (watching root enclosing).place _ _ _ _ .unmoved opening = opening :=
        Trace.relabel_unmoved opening
      rw [still] at mirrored
      exact mirrored
    exact same_of_watching (fun root enclosing => unlessDegenerate_mirrors (mirrored root enclosing))
      charged

/-- How strategies come and go around the estimates of a machine. -/
structure Disciplined (cx : Context) (fuel : Nat) : Prop where
  /-- An estimate leaves the strategies as they were before its own was installed, whether it
  comes to an answer or fails. -/
  restored (i : Inference) (s : Store) (w : World) :
    (ended (Run.installed i.active
      (i.strategy.estimate (resume cx fuel) fuel i.entry s) w)).strategies = w.strategies
  /-- So does an inference, which may take a key from the strategy around it first. -/
  called (c : InferCall) (s : Store) (w : World) :
    SameStrategies w.strategies (ended (inferAt cx fuel c s w)).strategies
  /-- The rest of a program is resumed after an inference in the world that the inference left. -/
  resumed (t : Option Expr) (f method : Expr) (options : List (String × Expr)) (vars : Vars)
    (a : Address) (s : Store) (k : Rest) (w : World) :
    run cx (fuel + 1) (.eval (.infer t f method options) vars a s k) w =
      match InferCall.read ⟨cx.program, cx.globals, vars, s, a⟩ t f method options with
      | .error e => .error e w
      | .ok c =>
        match inferAt cx fuel c s w with
        | .ok m w' => run cx fuel (.give k s (.marginal m)) w'
        | .error e w' => .error e w'
  /-- The inner filter of an opening chain leaves the strategies as they were, also where it loses
  all weight and that is caught. -/
  retried (c : OpeningChain.Config) (opening : Trace Rest Dist Float) (w : World) :
    SameStrategies w.strategies (ended (Host.unlessDegenerate
      (OpeningChain.complete (resume cx fuel) fuel c opening) w)).strategies
  /-- Under watch an estimate does the same, and each step of the program goes to the strategy
  whose turn it is, which is the innermost one installed. -/
  handled (i : Inference) (s : Store) (w : World) :
    let seen := Watch.estimate cx fuel i s (.start w)
    unwatched seen = Run.installed i.active
        (i.strategy.estimate (resume cx fuel) fuel i.entry s) w ∧
      ∀ h ∈ (ended seen).handed, h.installed = h.handlers

/-- For every program, at any depth of nesting and whatever fails. -/
theorem stack_discipline (cx : Context) (fuel : Nat) : Disciplined cx fuel where
  restored := installed_strategies cx fuel
  called := inferAt_same
  resumed t f method options vars a s k w := by
    rw [run_infer]
    cases InferCall.read ⟨cx.program, cx.globals, vars, s, a⟩ t f method options with
    | error e => rfl
    | ok c =>
      change (inferAt cx fuel c s >>= _) w = _
      cases ran : inferAt cx fuel c s w with
      | ok m w' => simp only [bind_of_ok ran, ran]
      | error e w' => simp only [bind_of_error ran, ran]
  retried := retried_same
  handled i s w := by
    have agreed := estimate_agree cx fuel i s (i.active.key.getD (.ofSeed 0))
      (fun key held => by rw [held]; rfl) w
    exact ⟨unwatched_eq_of_agree agreed, (sound_of_agree agreed).1.handed⟩

/-- An inference that comes to an answer leaves the strategy around it what it had, but for the
half of its key that the inference takes if it is given none. The rest of the program goes on with
the store that the inference was called with, and the handler of that strategy in the state it was
in. -/
theorem enclosing_undisturbed (cx : Context) (fuel : Nat) {t : Option Expr} {f method : Expr}
    {options : List (String × Expr)} {vars : Vars} {a : Address} {s : Store} {k : Rest}
    {c : InferCall} {m : Marginal Value Float} {w w' : World}
    (asked : InferCall.read ⟨cx.program, cx.globals, vars, s, a⟩ t f method options = .ok c)
    (completed : inferAt cx fuel c s w = .ok m w') :
    w'.strategies = parted c.key w.strategies ∧
      ∀ {σ ο : Type} (h : Handler Run Rest Dist Float σ ο) (state : σ) (steps n : Nat),
        (run cx (fuel + 1) (.eval (.infer t f method options) vars a s k) >>=
            drive (resume cx n) h steps state) w =
          (run cx fuel (.give k s (.marginal m)) >>= drive (resume cx n) h steps state) w' := by
  refine ⟨inferAt_strategies completed, fun h state steps n => ?_⟩
  rw [run_infer, asked, bind_assoc]
  change (inferAt cx fuel c s >>= _ >>= _) w = _
  rw [bind_assoc, bind_of_ok completed]

/-- A program whose only function returns a constant. -/
def constant : Context := ⟨⟨[("one", ⟨[], .ret (.literal (.int 1))⟩)]⟩, []⟩

/-- A sampler that holds a key is in charge. -/
def sampling : World :=
  { World.start with strategies := [⟨"MCMC", some (.ofSeed 0), .root, none⟩] }

/-- One attempt of rejection sampling, to be accepted at score zero. -/
def attempting : Handler Run Rest Dist Float Float (Option Value) :=
  Rejection.handler ⟨.count 1, ⟨0, .int 0⟩, true, .count 1⟩ 0

/-- An exhaustive search without a key, inside an attempt that has scored zero. -/
theorem constant_undisturbed :
    ∃ c m w',
      InferCall.read ⟨constant.program, constant.globals, [], .empty, .root⟩ none (.function "one")
        (.literal (.text "enumerate")) [] = .ok c ∧
      inferAt constant 9 c .empty sampling = .ok m w' ∧
      w'.strategies = [⟨"MCMC", some (Random.Key.ofSeed 0).split.1, .root, none⟩] ∧
      (run constant 10 (.eval (.infer none (.function "one") (.literal (.text "enumerate")) []) []
          .root .empty .halt) >>= drive (resume constant 9) attempting 9 0) sampling =
        (run constant 9 (.give .halt .empty (.marginal m)) >>=
          drive (resume constant 9) attempting 9 0) w' := by
  have undisturbed := @enclosing_undisturbed constant 9 none (.function "one")
    (.literal (.text "enumerate")) [] [] .root .empty .halt _ _ sampling _ rfl rfl
  exact ⟨_, _, _, rfl, rfl, undisturbed.1, undisturbed.2 attempting 0 9 9⟩

end Machine

end ProbCore
