import ProbCore.Proofs.Bounces
import ProbCore.Proofs.Memoization
import ProbCore.Proofs.Telling

/-! Bounces cannot be seen. Two programs that differ in bounces only come to the same under every
strategy and without any, and hand the same steps to strategies on the way. Between them stands a
run for which bounces are free: it needs no more fuel than the program itself, which in turn comes to
the same with some more, and it makes the moves of the program without bounces one by one. -/

namespace ProbCore

variable {J α β : Type} {φ : α → β}

namespace Chronicled

open Machine

/-- Runs the machine with its bounces for free, and without writing its moves down. -/
def glide (cx : Context) : Nat → Nat → Control → Chronicled (Step Rest Dist Float)
  | _, 0, _ => throw .outOfFuel
  | depth, fuel + 1, control => do
    match ← quiet (advance cx control.settled) with
    | .go next => glide cx depth fuel next
    | .rest step => return step
    | .infer i s k => do
      let m ← installed i.active (i.strategy.estimate
        (fun k s v => handing (depth + 1) (glide cx (depth + 1) fuel (.give k s v))) fuel i.entry s)
      glide cx depth fuel (.give k s (.marginal m))

/-- The answer of a strategy that resumes such runs. -/
def glideAnswer (cx : Context) (depth fuel : Nat) (i : Inference) (s : Store) :
    Chronicled (Marginal Value Float) :=
  installed i.active (i.strategy.estimate
    (fun k s v => handing depth (glide cx depth fuel (.give k s v))) fuel i.entry s)

theorem glide_succ (cx : Context) (depth fuel : Nat) (control : Control) :
    glide cx depth (fuel + 1) control = (do
      match ← quiet (advance cx control.settled) with
      | .go next => glide cx depth fuel next
      | .rest step => return step
      | .infer i s k => do
        let m ← glideAnswer cx (depth + 1) fuel i s
        glide cx depth fuel (.give k s (.marginal m))) := rfl

section

variable (cx : Context)

/-- Whether bounces for free make no difference from a control on. -/
def Glides (depth fuel : Nat) (control : Control) : Prop :=
  Mirrors (telling (Step.relabel unbouncing)) (Step.relabel unbouncing)
    (glide cx depth fuel control) (run cx.unbounced depth fuel control.unbounced)

variable {cx} {depth fuel : Nat}

theorem Glides.answer (glides : ∀ control, Glides cx depth fuel control) (i : Inference)
    (s : Store) :
    Mirrors (telling (Step.relabel unbouncing)) id (glideAnswer cx depth fuel i s)
      (answer cx.unbounced depth fuel i.unbounced s) := by
  have resumes : Resumes (T := telling (Step.relabel unbouncing)) unbouncing
      (fun k s v => handing depth (glide cx depth fuel (.give k s v)))
      (resume cx.unbounced depth fuel) := fun k s v =>
    tracks_single.mp (handing_telling depth (glides (.give k s v)).tracks)
  exact tracks_single.mp (installed_telling i.active
    (i.strategy.estimate_mirrors telling_serves resumes fuel i.entry s).tracks)

/-- With its bounces for free a run makes the moves of the program without bounces. -/
theorem glides (cx : Context) (depth fuel : Nat) (control : Control) :
    Glides cx depth fuel control := by
  induction fuel generalizing depth control with
  | zero => exact .throw (.same _)
  | succ fuel ih =>
    rw [Glides, glide_succ, run_succ]
    refine (moving_telling (advance_unbounced cx control)).bind fun move => ?_
    cases move with
    | go next => exact ih depth next
    | rest step => exact .pure step
    | infer i s k => exact (Glides.answer (ih (depth + 1)) i s).bind fun m => ih depth _

/-- A strategy comes to the same, with as much fuel or more, if the runs that it resumes do. -/
theorem answers_handed {P : Patience J} {x : J → Control → Chronicled (Step Rest Dist Float)}
    {y : Control → Chronicled (Step Rest Dist Float)} {more : J → Nat} (kept : ¬ P.lost .degenerate)
    (tracks : ∀ control, Tracks P (telling id) id (fun j => x j control) (y control))
    (fuelled : P.Suffices more fuel) (depth : Nat) (i : Inference) (s : Store) :
    Tracks P (telling id) id
      (fun j => installed i.active
        (i.strategy.estimate (fun k s v => handing depth (x j (.give k s v))) (more j) i.entry s))
      (installed i.active
        (i.strategy.estimate (fun k s v => handing depth (y (.give k s v))) fuel i.entry s)) :=
  answers_telling (along_telling kept (fun k s v => handing_telling depth (tracks (.give k s v)))
    fuelled) i s

end

theorem settled_or_bounce (control : Control) : control.settled = control ∨
    ∃ c vars a s k, control = .eval (.bounce c) vars a s k := by
  cases control with
  | eval c vars a s k =>
    cases c with
    | bounce c => exact .inr ⟨c, vars, a, s, k, rfl⟩
    | _ => exact .inl rfl
  | call => exact .inl rfl
  | give => exact .inl rfl

section

variable {cx : Context} {depth fuel more : Nat}

/-- A bounce costs a run one fuel, and only that is written down of it. -/
theorem run_bounce (c : Comp) (vars : Vars) (a : Address) (s : Store) (k : Rest) (x : Chronicle) :
    run cx depth (fuel + 1) (.eval (.bounce c) vars a s k) x =
      run cx depth fuel (.eval c vars a s k)
        { x with moves := ⟨cx, .eval (.bounce c) vars a s k, x.world⟩ :: x.moves } := rfl

theorem glide_bounce (c : Comp) (vars : Vars) (a : Address) (s : Store) (k : Rest) :
    glide cx depth fuel (.eval (.bounce c) vars a s k) = glide cx depth fuel (.eval c vars a s k) := by
  cases fuel <;> rfl

/-- Bounces for free save fuel at most. -/
theorem run_glides (depth : Nat) (less : fuel ≤ more) (control : Control) :
    Tracks .growing (telling id) id (fun _ => glide cx depth more control)
      (run cx depth fuel control) := by
  induction fuel generalizing more depth control with
  | zero => exact .lost rfl
  | succ fuel ih =>
    obtain settled | ⟨c, vars, a, s, k, rfl⟩ := settled_or_bounce control
    · obtain ⟨more, rfl⟩ : ∃ fewer, more = fewer + 1 := ⟨more - 1, by omega⟩
      have less : fuel ≤ more := by omega
      rw [glide_succ, run_succ, settled]
      refine (moving_telling (alone_mirrors _)).tracks.bind fun move => ?_
      cases move with
      | go next => exact ih depth less next
      | rest step => exact .pure step
      | infer i s k =>
        exact (answers_handed (P := .growing) nofun (fun control => ih (depth + 1) less control)
          (.of_forall fun _ => .inr ⟨rfl, less⟩) (depth + 1) i s).bind fun m => ih depth less _
    · intro i x x' held
      rw [run_bounce, glide_bounce]
      exact ih depth (Nat.le_of_succ_le less) (.eval c vars a s k) i x _ held

/-- What a run comes to with its bounces for free it comes to with enough fuel. -/
theorem glide_reached (depth fuel : Nat) (control : Control) :
    Tracks .unending (telling id) id (fun more => run cx depth more control)
      (glide cx depth fuel control) := by
  induction fuel generalizing depth control with
  | zero => exact .lost rfl
  | succ fuel ih =>
    have settles {control : Control} (settled : control.settled = control) :
        Tracks .unending (telling id) id (fun more => run cx depth more control)
          (glide cx depth (fuel + 1) control) := by
      refine Tracks.of_eventually (x := fun more => run cx depth (more - 1 + 1) control) ?_ ?_
      · simp only [run_succ]
        rw [glide_succ, settled]
        refine (moved_telling (quiet_telling (alone_mirrors _))).tracks.bind fun move => ?_
        cases move with
        | go next => exact (ih depth next).later 1
        | rest step => exact .pure step
        | infer i s k =>
          have fuelled : Patience.unending.Suffices (· - 1) fuel := by
            filter_upwards [Filter.eventually_ge_atTop (fuel + 1)] with more enough
            exact .inr ⟨rfl, by omega⟩
          exact (answers_handed (P := .unending) nofun
            (fun control => (ih (depth + 1) control).later 1) fuelled (depth + 1) i s).bind
              fun m => (ih depth _).later 1
      · filter_upwards [Filter.eventually_ge_atTop 1] with more enough
        rw [Nat.sub_add_cancel enough]
    cases control with
    | eval c vars a s k =>
      -- Any number of bounces may come next, and none of them is a move of the run without.
      induction c using Comp.settled.induct with
      | case1 c onward =>
        intro i x x' held
        rw [glide_bounce]
        obtain gone | ⟨r, ends, agree⟩ := onward i
          { x with moves := ⟨cx, .eval (.bounce c) vars a s k, x.world⟩ :: x.moves } x' held
        · exact .inl gone
        · refine .inr ⟨r, ?_, agree⟩
          filter_upwards [(Filter.tendsto_sub_atTop_nat 1).eventually ends,
            Filter.eventually_ge_atTop 1] with more ends enough
          rw [← ends, ← Nat.sub_add_cancel enough, run_bounce, Nat.add_sub_cancel]
      | case2 c other =>
        refine settles ?_
        rw [Control.settled, Comp.settled]
        exact other
    | call f args a s k => exact settles rfl
    | give k s v => exact settles rfl

/-- An inference, which runs at the depth where it begins. -/
def infer (cx : Context) (fuel : Nat) (c : InferCall) (s : Store) :
    Chronicled (Marginal Value Float) := do
  answer cx 0 fuel (← quiet (prepare c.place c.function c.method c.key c.options none)) s

def glideInfer (cx : Context) (fuel : Nat) (c : InferCall) (s : Store) :
    Chronicled (Marginal Value Float) := do
  glideAnswer cx 0 fuel (← quiet (prepare c.place c.function c.method c.key c.options none)) s

theorem infer_mirrors (cx : Context) (fuel : Nat) (c : InferCall) (s : Store) (since : Records) :
    Mirrors (chronicling since) id (infer cx fuel c s) (inferAt cx fuel c s) :=
  (prepare_leaves c.place c.function c.method c.key c.options none).chronicled.bind fun i =>
    answer_mirrors (succession_lasting since) cx 0 fuel i s

theorem infer_glides (c : InferCall) (s : Store) :
    Tracks .growing (telling id) id (fun _ => glideInfer cx fuel c s) (infer cx fuel c s) :=
  (quiet_telling (alone_mirrors _)).tracks.bind fun i =>
    answers_handed (P := .growing) nofun (fun control => run_glides 0 le_rfl control)
      (.of_forall fun _ => .inl rfl) 0 i s

theorem glideInfer_mirrors (cx : Context) (fuel : Nat) (c : InferCall) (s : Store) :
    Mirrors (telling (Step.relabel unbouncing)) id (glideInfer cx fuel c s)
      (infer cx.unbounced fuel c s) :=
  (quiet_telling (prepare_unbounced c.place c.function c.method c.key c.options none)).bind fun i =>
    Glides.answer (glides cx 0 fuel) i s

theorem glideInfer_reached (fuel : Nat) (c : InferCall) (s : Store) :
    Tracks .unending (telling id) id (fun more => infer cx more c s) (glideInfer cx fuel c s) := by
  refine (quiet_telling (alone_mirrors _)).tracks.bind fun i => ?_
  refine answers_handed (P := .unending) nofun (glide_reached 0 fuel) ?_ 0 i s
  filter_upwards [Filter.eventually_ge_atTop fuel] with more enough
  exact .inr ⟨rfl, enough⟩

end

end Chronicled

section

variable {α β : Type} {φ : α → β}

/-- What came of a computation, with its value renamed. -/
def shown (φ : α → β) : EStateM.Result Failure World α → EStateM.Result Failure World β
  | .ok a w => .ok (φ a) w
  | .error e w => .error e w

/-- The steps that were handed to strategies, latest first, without the bounces of their rests. -/
def Chronicle.handedOver (x : Chronicle) : List Handed := x.handed.map (·.map (Step.relabel unbouncing))

/-- What can be seen of a result and of what was handed over on the way. -/
def seen (φ : α → β) (r : EStateM.Result Failure Chronicle α) :
    EStateM.Result Failure World β × List Handed :=
  (shown φ (unchronicled r), (ended r).handedOver)

theorem gaveUp_telling {ψ : Step Rest Dist Float → Step Rest Dist Float}
    {r : EStateM.Result Failure Chronicle α} {r' : EStateM.Result Failure Chronicle β}
    (agree : (telling ψ).Agree () φ r r') :
    GaveUp (unchronicled r) ↔ GaveUp (unchronicled r') := by
  obtain ⟨a, x, x', rfl, rfl, _⟩ | ⟨e, e', x, x', rfl, rfl, moved, same, _⟩ := agree.cases
  · exact ⟨nofun, nofun⟩
  · obtain rfl := moved.eq_of_id
    constructor
    · rintro ⟨w, failed⟩
      obtain ⟨rfl, _⟩ := EStateM.Result.error.inj failed
      exact ⟨_, rfl⟩
    · rintro ⟨w, failed⟩
      obtain ⟨rfl, _⟩ := EStateM.Result.error.inj failed
      exact ⟨_, rfl⟩

theorem seen_of_agree {r r' : EStateM.Result Failure Chronicle α}
    (agree : (telling id).Agree () id r r') : seen φ r = seen φ r' := by
  obtain ⟨a, x, x', rfl, rfl, same, handed, _⟩ | ⟨e, e', x, x', rfl, rfl, moved, same, handed, _⟩ :=
    agree.cases
  · simp only [seen, unchronicled, ended, Chronicle.handedOver, same, handed.trans (List.map_id _), id]
  · simp only [seen, unchronicled, ended, Chronicle.handedOver, same, handed.trans (List.map_id _),
      moved.eq_of_id]

/-- Results look the same if they agree with the same up to bounces. -/
theorem seen_eq {r r' : EStateM.Result Failure Chronicle α} {u : EStateM.Result Failure Chronicle β}
    (agree : (telling (Step.relabel unbouncing)).Agree () φ r u)
    (agree' : (telling (Step.relabel unbouncing)).Agree () φ r' u) : seen φ r = seen φ r' := by
  obtain ⟨a, x, x₁, rfl, rfl, same, handed, _⟩ | ⟨e, e₁, x, x₁, rfl, rfl, moved, same, handed, _⟩ :=
    agree.cases
  · obtain ⟨a', x', _, rfl, ended, same', handed', _⟩ | ⟨_, _, _, _, _, failed, _⟩ := agree'.cases
    · obtain ⟨value, rfl⟩ := EStateM.Result.ok.inj ended
      simp only [seen, shown, unchronicled, ProbCore.ended, Chronicle.handedOver, ← handed, ← handed',
        value, same, same']
    · cases failed
  · obtain ⟨_, _, _, _, ended, _⟩ | ⟨e', _, x', _, rfl, failed, moved', same', handed', _⟩ := agree'.cases
    · cases ended
    · obtain ⟨rfl, rfl, trivial⟩ := EStateM.Result.error.inj failed
      simp only [seen, shown, unchronicled, ProbCore.ended, Chronicle.handedOver, ← handed, ← handed',
        same, same', ← moved.eq_of_id, ← moved'.eq_of_id]

/-- What was run to an end comes to what the same with other bounces comes to with enough fuel, if
both make the same moves without their bounces. -/
theorem seen_reached {x : Nat → Chronicled α} {y z z' : Chronicled α} {u : Chronicled β}
    (glides : Tracks .growing (telling id) id (fun _ => z) y)
    (still : Mirrors (telling (Step.relabel unbouncing)) φ z u)
    (still' : Mirrors (telling (Step.relabel unbouncing)) φ z' u)
    (reached : Tracks .unending (telling id) id x z') (w : World) :
    GaveUp (unchronicled (y (.start w))) ∨
      ∃ enough, ∀ more, enough ≤ more → seen φ (x more (.start w)) = seen φ (y (.start w)) := by
  obtain ⟨_, v, rfl, failed⟩ | ⟨r, ends, agree⟩ := glides () (.start w) (.start w) ⟨rfl, rfl, trivial⟩
  · exact .inl ⟨v.world, congrArg unchronicled failed⟩
  obtain rfl : z (.start w) = r := Filter.eventually_pure.mp ends
  have plain := still () (.start w) (.start w) ⟨rfl, rfl, trivial⟩
  have plain' := still' () (.start w) (.start w) ⟨rfl, rfl, trivial⟩
  obtain ⟨_, v, rfl, failed⟩ | ⟨r, ends, agree'⟩ := reached () (.start w) (.start w) ⟨rfl, rfl, trivial⟩
  · refine .inl ((gaveUp_telling agree).mp ((gaveUp_telling plain).mpr ((gaveUp_telling plain').mp ?_)))
    exact ⟨v.world, congrArg unchronicled failed⟩
  · obtain ⟨enough, ends⟩ := Filter.eventually_atTop.mp ends
    refine .inr ⟨enough, fun more many => ?_⟩
    rw [ends more many, seen_of_agree agree', seen_eq plain' plain, seen_of_agree agree]

end

namespace Machine

/-- The second program comes to the same as the first, wherever this one comes to an end, and with
enough fuel. On the way it hands the same steps to strategies in the same order. -/
structure Follows (cx cx' : Context) : Prop where
  /-- From any control on, also one that is resumed, under the strategies in charge or without. -/
  run {control control' : Control} (same : control.unbounced = control'.unbounced) (fuel : Nat)
    (w : World) : GaveUp (run cx fuel control w) ∨ ∃ enough, ∀ more, enough ≤ more →
      shown (Step.relabel unbouncing) (Machine.run cx' more control' w) =
        shown (Step.relabel unbouncing) (Machine.run cx fuel control w) ∧
      (ended (Chronicled.run cx' 0 more control' (.start w))).handedOver =
        (ended (Chronicled.run cx 0 fuel control (.start w))).handedOver
  /-- In every inference. -/
  infer (fuel : Nat) (c : InferCall) (s : Store) (w : World) :
    GaveUp (inferAt cx fuel c s w) ∨ ∃ enough, ∀ more, enough ≤ more →
      inferAt cx' more c s w = inferAt cx fuel c s w ∧
      (ended (Chronicled.infer cx' more c s (.start w))).handedOver =
        (ended (Chronicled.infer cx fuel c s (.start w))).handedOver
  /-- What is compared is what happens: the runs with a chronicle are those without. -/
  faithful (fuel : Nat) (control : Control) (w : World) :
    unchronicled (Chronicled.run cx 0 fuel control (.start w)) = Machine.run cx fuel control w
  faithfully (fuel : Nat) (c : InferCall) (s : Store) (w : World) :
    unchronicled (Chronicled.infer cx fuel c s (.start w)) = inferAt cx fuel c s w

theorem run_faithful (cx : Context) (fuel : Nat) (control : Control) (w : World) :
    unchronicled (Chronicled.run cx 0 fuel control (.start w)) = run cx fuel control w :=
  unchronicled_eq (fun since => Chronicled.run_mirrors (succession_lasting since) cx 0 fuel control) w

theorem infer_faithful (cx : Context) (fuel : Nat) (c : InferCall) (s : Store) (w : World) :
    unchronicled (Chronicled.infer cx fuel c s (.start w)) = inferAt cx fuel c s w :=
  unchronicled_eq (Chronicled.infer_mirrors cx fuel c s) w

theorem shown_id {α : Type} (r : EStateM.Result Failure World α) : shown id r = r := by
  cases r <;> rfl

theorem follows_of_same {cx cx' : Context} (same : cx.unbounced = cx'.unbounced) :
    Follows cx cx' where
  run {control control'} alike fuel w := by
    have still' := Chronicled.glides cx' 0 fuel control'
    rw [Chronicled.Glides, ← same, ← alike] at still'
    have reached := seen_reached (Chronicled.run_glides 0 le_rfl control)
      (Chronicled.glides cx 0 fuel control) still' (Chronicled.glide_reached 0 fuel control') w
    simp only [seen, run_faithful, Prod.mk.injEq] at reached
    exact reached
  infer fuel c s w := by
    have still' := Chronicled.glideInfer_mirrors cx' fuel c s
    rw [← same] at still'
    have reached := seen_reached (Chronicled.infer_glides c s)
      (Chronicled.glideInfer_mirrors cx fuel c s) still' (Chronicled.glideInfer_reached fuel c s) w
    simp only [seen, infer_faithful, shown_id, Prod.mk.injEq] at reached
    exact reached
  faithful fuel control w := run_faithful cx fuel control w
  faithfully fuel c s w := infer_faithful cx fuel c s w

/-- Bounces at any places of a program, any number of them, change nothing. -/
theorem bounces_unseen {cx cx' : Context} (same : cx.unbounced = cx'.unbounced) :
    Follows cx cx' ∧ Follows cx' cx := ⟨follows_of_same same, follows_of_same same.symm⟩

/-- A program that calls a function, and the same with bounces at three places. -/
def direct : Program :=
  ⟨[("one", ⟨[], .ret (.literal (.int 1))⟩),
    ("main", ⟨[], .bind "x" (.call none (.function "one") []) (.ret (.var "x"))⟩)]⟩

def bouncing : Program :=
  ⟨[("one", ⟨[], .bounce (.ret (.literal (.int 1)))⟩),
    ("main", ⟨[], .bounce (.bind "x" (.bounce (.call none (.function "one") [])) (.ret (.var "x")))⟩)]⟩

/-- Both deliver the same. -/
theorem bouncing_unseen : Context.unbounced ⟨direct, []⟩ = Context.unbounced ⟨bouncing, []⟩ ∧
    ∃ enough, ∀ more, enough ≤ more →
      shown (Step.relabel unbouncing)
        (run ⟨bouncing, []⟩ more (.call (.function "main") [] .root .empty .deliver) .start) =
          .ok (.stray (.int 1)) .start := by
  have same : Context.unbounced ⟨direct, []⟩ = Context.unbounced ⟨bouncing, []⟩ := rfl
  have alike : (Control.call (.function "main") [] .root .empty .deliver).unbounced =
      (Control.call (.function "main") [] .root .empty .deliver).unbounced := rfl
  refine ⟨same, ?_⟩
  obtain ⟨_, gone⟩ | ⟨enough, follows⟩ := (bounces_unseen same).1.run alike 10 .start
  · cases gone
  · exact ⟨enough, fun more many => (follows more many).1⟩

end Machine

end ProbCore
