import ProbCore.Proofs.Continuation
import ProbCore.Proofs.SharedStrategies
import ProbCore.Proofs.StrategyTracking

/-! Runs that go on only as long as each move is allowed, and give up otherwise, as they do when they
run out of fuel. A run that does not give up comes to the same with more fuel and when more moves
are allowed. What it delivers on its own it delivers to any rest. -/

namespace ProbCore

namespace Machine

/-- Runs the machine while its moves are allowed. -/
def runWhile (allowed : Control → Bool) (cx : Context) : Nat → Control → Run (Step Rest Dist Float)
  | 0, _ => throw .outOfFuel
  | fuel + 1, control =>
    if allowed control then do
      match ← advance cx control with
      | .go next => runWhile allowed cx fuel next
      | .rest step => return step
      | .infer i s k => do
        let m ← Run.installed i.active
          (i.strategy.estimate (fun k s v => runWhile allowed cx fuel (.give k s v)) fuel i.entry s)
        runWhile allowed cx fuel (.give k s (.marginal m))
    else throw .outOfFuel

/-- The answer of a strategy that resumes runs only while their moves are allowed. -/
def answerWhile (allowed : Control → Bool) (cx : Context) (fuel : Nat) (i : Inference) (s : Store) :
    Run (Marginal Value Float) :=
  Run.installed i.active
    (i.strategy.estimate (fun k s v => runWhile allowed cx fuel (.give k s v)) fuel i.entry s)

/-- An inference all of whose moves are allowed. -/
def inferWhile (allowed : Control → Bool) (cx : Context) (fuel : Nat) (c : InferCall) (s : Store) :
    Run (Marginal Value Float) := do
  answerWhile allowed cx fuel (← prepare c.place c.function c.method c.key c.options none) s

/-- Anything may happen. -/
def always : Control → Bool := fun _ => true

theorem runWhile_always (cx : Context) (fuel : Nat) (control : Control) :
    runWhile always cx fuel control = run cx fuel control := by
  induction fuel generalizing control with
  | zero => rfl
  | succ fuel ih =>
    rw [runWhile, run, if_pos (show always control = true from rfl)]
    refine congrArg _ (funext fun move => ?_)
    cases move with
    | go next => exact ih next
    | rest step => rfl
    | infer i s k => simp only [ih]

theorem inferWhile_always (cx : Context) (fuel : Nat) (c : InferCall) (s : Store) :
    inferWhile always cx fuel c s = inferAt cx fuel c s := by
  simp only [inferWhile, answerWhile, runWhile_always]
  rfl

end Machine

/-- The result of a run that gave up. -/
def GaveUp {α : Type} (r : EStateM.Result Failure World α) : Prop := ∃ w, r = .error .outOfFuel w

/-- One more allowance is as good as the other, and to run out of fuel is to give up. -/
def Patience.growing : Patience Unit := ⟨pure (), (· = .outOfFuel)⟩

theorem tracks_growing {α : Type} {x y : Run α} :
    Tracks .growing alone id (fun _ => x) y ↔ ∀ w, GaveUp (y w) ∨ x w = y w := by
  constructor
  · intro tracks w
    obtain ⟨_, v, rfl, failed⟩ | ⟨r, ends, agree⟩ := tracks () w w rfl
    · exact .inl ⟨v, failed⟩
    · rw [show x w = r from Filter.eventually_pure.mp ends]
      obtain ⟨a, _, _, rfl, ran, rfl⟩ | ⟨e, _, _, _, rfl, failed, moved, rfl⟩ := agree.cases
      · exact .inr ran.symm
      · rw [moved.eq_of_id] at failed
        exact .inr failed.symm
  · intro same i w w' held
    obtain rfl : w = w' := held
    obtain ⟨v, failed⟩ | same := same w
    · exact .inl ⟨_, v, rfl, failed⟩
    · refine .inr ⟨y w, Filter.eventually_pure.mpr same, alone_mirrors y i w w rfl⟩

namespace Machine

variable {allowed allowed' : Control → Bool} {cx : Context} {fuel fuel' : Nat}

theorem growing_sustains : alone.Sustains .growing (D := Dist) (R := Float) :=
  alone_sharing.sustains nofun

theorem along_growing (less : fuel ≤ fuel') {resume resume' : Resume Run Rest Dist Float}
    (resumes : ∀ k s v, Tracks .growing alone id (fun _ => resume' k s v) (resume k s v)) :
    Alongside .growing (T := alone) .unmoved (fun _ => resume') resume (fun _ => fuel') fuel :=
  .unmoved growing_sustains resumes (.of_forall fun _ => .inr ⟨rfl, less⟩)

section

variable (fewer : ∀ c, allowed c = true → allowed' c = true)
include fewer

theorem runWhile_tracks (less : fuel ≤ fuel') (control : Control) :
    Tracks .growing alone id (fun _ => runWhile allowed' cx fuel' control)
      (runWhile allowed cx fuel control) := by
  induction fuel generalizing fuel' control with
  | zero => exact .lost rfl
  | succ fuel ih =>
    obtain ⟨fuel', rfl⟩ : ∃ more, fuel' = more + 1 := ⟨fuel' - 1, by omega⟩
    have less : fuel ≤ fuel' := by omega
    rw [runWhile, runWhile]
    by_cases fine : allowed control = true
    · rw [if_pos fine, if_pos (fewer control fine)]
      refine (alone_mirrors _).tracks.bind fun move => ?_
      cases move with
      | go next => exact ih less next
      | rest step => exact .pure step
      | infer i s k =>
        have along := along_growing less (fun k s v => ih less (.give k s v))
        exact (alone_sharing.installed i.active (i.strategy.estimate_tracks along i.entry s)).bind
          fun m => ih less (.give k s (.marginal m))
    · rw [if_neg fine]
      exact .lost rfl

/-- A run that does not give up comes to the same with more fuel and more moves allowed. -/
theorem runWhile_grows (less : fuel ≤ fuel') (control : Control) (w : World) :
    GaveUp (runWhile allowed cx fuel control w) ∨
      runWhile allowed' cx fuel' control w = runWhile allowed cx fuel control w :=
  tracks_growing.mp (runWhile_tracks fewer less control) w

theorem answerWhile_tracks (less : fuel ≤ fuel') (i : Inference) (s : Store) :
    Tracks .growing alone id (fun _ => answerWhile allowed' cx fuel' i s)
      (answerWhile allowed cx fuel i s) :=
  alone_sharing.installed i.active
    (i.strategy.estimate_tracks (along_growing less fun _ _ _ => runWhile_tracks fewer less _) i.entry s)

theorem answerWhile_grows (less : fuel ≤ fuel') (i : Inference) (s : Store) (w : World) :
    GaveUp (answerWhile allowed cx fuel i s w) ∨
      answerWhile allowed' cx fuel' i s w = answerWhile allowed cx fuel i s w :=
  tracks_growing.mp (answerWhile_tracks fewer less i s) w

/-- So does an inference. -/
theorem inferWhile_grows (less : fuel ≤ fuel') (c : InferCall) (s : Store) (w : World) :
    GaveUp (inferWhile allowed cx fuel c s w) ∨
      inferWhile allowed' cx fuel' c s w = inferWhile allowed cx fuel c s w :=
  tracks_growing.mp ((alone_mirrors _).tracks.bind fun i => answerWhile_tracks fewer less i s) w

end

/-- What does not give up comes to the same when anything may happen. -/
theorem runWhile_unguarded (allowed : Control → Bool) (cx : Context) (fuel : Nat) (control : Control)
    (w : World) : GaveUp (runWhile allowed cx fuel control w) ∨
      runWhile allowed cx fuel control w = run cx fuel control w := by
  rw [← runWhile_always]
  exact (runWhile_grows (fun _ _ => rfl) le_rfl control w).imp_right Eq.symm

theorem inferWhile_unguarded (allowed : Control → Bool) (cx : Context) (fuel : Nat) (c : InferCall)
    (s : Store) (w : World) : GaveUp (inferWhile allowed cx fuel c s w) ∨
      inferWhile allowed cx fuel c s w = inferAt cx fuel c s w := by
  rw [← inferWhile_always]
  exact (inferWhile_grows (fun _ _ => rfl) le_rfl c s w).imp_right Eq.symm

section

variable {i : Inference} {s : Store} {w w' : World} {m : Marginal Value Float} {more : Nat}

theorem answerWhile_settled (answered : answerWhile allowed cx fuel i s w = .ok m w')
    (many : fuel ≤ more) : answerWhile allowed cx more i s w = .ok m w' := by
  obtain ⟨_, gone⟩ | same := answerWhile_grows (fun _ => id) many i s w
  · rw [answered] at gone
    cases gone
  · rw [same, answered]

/-- With less fuel an inference may give up, but it comes to nothing else. -/
theorem answerWhile_either (answered : answerWhile allowed cx fuel i s w = .ok m w') (more : Nat) :
    GaveUp (answerWhile allowed cx more i s w) ∨ answerWhile allowed cx more i s w = .ok m w' := by
  by_cases many : fuel ≤ more
  · exact .inr (answerWhile_settled answered many)
  · obtain gone | same := answerWhile_grows (fun _ => id) (by omega : more ≤ fuel) i s w
    · exact .inl gone
    · exact .inr (same.symm.trans answered)

end

/-- A move that is no exit. -/
def Stays (x : Run Move) : Prop := ∀ s v, ¬ Yields x (.rest (.exit s v))

namespace Stays

variable {α : Type}

theorem bind {x : Run α} {f : α → Run Move} (rest : ∀ a, Stays (f a)) : Stays (x >>= f) := by
  intro s v yields
  obtain ⟨a, _, yields⟩ := yields.bind
  exact rest a s v yields

theorem go (next : Control) : Stays (pure (.go next)) := fun _ _ yields => nomatch yields.pure

theorem sample (s : Store) (k : Rest) (a : Address) (d : Dist) :
    Stays (pure (.rest (.sample s k a d))) := fun _ _ yields => nomatch yields.pure

theorem factor (s : Store) (k : Rest) (a : Address) (x : Float) :
    Stays (pure (.rest (.factor s k a x))) := fun _ _ yields => nomatch yields.pure

theorem stray (v : Value) : Stays (pure (.rest (.stray v))) := fun _ _ yields => nomatch yields.pure

theorem infer (i : Inference) (s : Store) (k : Rest) : Stays (pure (.infer i s k)) :=
  fun _ _ yields => nomatch yields.pure

theorem throw (e : Failure) : Stays (MonadExcept.throw e) := by
  intro s v yields
  obtain ⟨w, w', returned⟩ := yields
  cases returned

end Stays

theorem advanceComp_stays (cx : Context) (c : Comp) (vars : Vars) (a : Address) (s : Store)
    (k : Rest) : Stays (advanceComp cx c vars a s k) := by
  cases c with
  | sequence steps =>
    match steps with
    | [] => exact .go _
    | [_] => exact .go _
    | _ :: _ :: _ => exact .go _
  | bind name first rest => exact .go _
  | bounce c => exact .go _
  | raise message => exact .throw _
  | unknown word => exact .throw _
  | ret e => exact .bind fun _ => .go _
  | choose test yes no => exact .bind fun _ => .go _
  | emit e => exact .bind fun _ => .bind fun _ => .go _
  | stop e => exact .bind fun _ => .stray _
  | relative t => exact .bind fun _ => .bind fun _ => .go _
  | sample t d => exact .bind fun _ => .bind fun _ => .bind fun _ => .sample _ _ _ _
  | factor t e =>
    exact .bind fun _ => .bind fun _ => .bind fun _ => .bind fun _ => .factor _ _ _ _
  | observe t d e =>
    exact .bind fun _ => .bind fun _ => .bind fun _ => .bind fun _ => .bind fun _ => .factor _ _ _ _
  | set key e => exact .bind fun _ => .bind fun _ => .bind fun _ => .go _
  | call t f args => exact .bind fun _ => .bind fun _ => .bind fun _ => .go _
  | apply t f args => exact .bind fun _ => .bind fun _ => .bind fun _ => .go _
  | map t data f batch =>
    exact .bind fun _ => .bind fun _ => .bind fun _ => .bind fun _ => .bind fun _ => .go _
  | cache t f bound =>
    exact .bind fun _ => .bind fun _ => .bind fun _ => .bind fun _ => .go _
  | param t start mean sd seed =>
    exact .bind fun _ => .bind fun _ => .bind fun _ => .bind fun _ => .bind fun _ => .bind fun _ =>
      .bind fun _ => .bind fun _ => .bind fun _ => .go _
  | tensor form t e => exact .bind fun _ => .bind fun _ => .bind fun _ => .go _
  | infer t f method options =>
    exact .bind fun _ => .bind fun _ => .bind fun _ => .bind fun _ => .bind fun _ =>
      .bind fun _ => .infer _ _ _

/-- Only the delivery of a value to nobody is an exit. -/
theorem delivered_of_exit {c : Control} {s : Store} {v : Value}
    (exits : Yields (advance cx c) (.rest (.exit s v))) : c.delivered? = some (s, v) := by
  cases c with
  | eval c vars a s' k => exact (advanceComp_stays cx c vars a s' k s v exits).elim
  | call f args a s' k => exact (Stays.bind (fun _ => .go _) s v exits).elim
  | give k s' v' =>
    cases k with
    | halt =>
      cases exits.pure
      rfl
    | deliver => cases exits.pure
    | entry => cases exits.pure
    | bind => cases exits.pure
    | sequence => cases exits.pure
    | replace => cases exits.pure
    | remember table key k => exact (Stays.bind (fun _ => .go _) s v exits).elim
    | visit pass k => exact (Stays.bind (fun _ => .go _) s v exits).elim

/-- Above any rest, a computation takes `moves` moves from a world to deliver a value. With less
fuel it gives up on the way, and with enough fuel no inference on the way gives up. -/
structure Delivers (allowed : Control → Bool) (cx : Context) (c : Control) (w : World) (s : Store)
    (v : Value) (w' : World) (moves enough : Nat) : Prop where
  begun : c.delivered? = none → 0 < moves
  short {fuel : Nat} (base : Rest) :
    fuel ≤ moves → GaveUp (runWhile allowed cx fuel (c.onto base) w)
  either (fuel : Nat) : (∀ base, GaveUp (runWhile allowed cx (moves + fuel) (c.onto base) w)) ∨
    ∀ base, runWhile allowed cx (moves + fuel) (c.onto base) w =
      runWhile allowed cx fuel (.give base s v) w'
  long {fuel : Nat} (base : Rest) : enough ≤ moves + fuel →
    runWhile allowed cx (moves + fuel) (c.onto base) w = runWhile allowed cx fuel (.give base s v) w'

/-- What comes after a move. -/
def goOn (allowed : Control → Bool) (cx : Context) (fuel : Nat) : Move → Run (Step Rest Dist Float)
  | .go next => runWhile allowed cx fuel next
  | .rest step => pure step
  | .infer i s k => do
    runWhile allowed cx fuel (.give k s (.marginal (← answerWhile allowed cx fuel i s)))

theorem runWhile_succ {c : Control} (fine : allowed c = true) :
    runWhile allowed cx (fuel + 1) c = advance cx c >>= goOn allowed cx fuel := by
  rw [runWhile, if_pos fine]
  refine congrArg _ (funext fun move => ?_)
  cases move <;> rfl

/-- One move more at the beginning. -/
theorem Delivers.before {c c' : Control} {w w₁ w' : World} {s : Store} {v : Value}
    {moves enough : Nat} (later : Delivers allowed cx c' w₁ s v w' moves enough)
    (begins : ∀ fuel, (∀ base, GaveUp (runWhile allowed cx (fuel + 1) (c.onto base) w)) ∨
      ∀ base, runWhile allowed cx (fuel + 1) (c.onto base) w =
        runWhile allowed cx fuel (c'.onto base) w₁)
    (surely : ∀ fuel base, enough ≤ fuel →
      runWhile allowed cx (fuel + 1) (c.onto base) w = runWhile allowed cx fuel (c'.onto base) w₁) :
    Delivers allowed cx c w s v w' (moves + 1) (enough + 1) where
  begun _ := Nat.succ_pos moves
  short {fuel} base few := by
    cases fuel with
    | zero => exact ⟨w, rfl⟩
    | succ fuel =>
      obtain gone | same := begins fuel
      · exact gone base
      · rw [same]
        exact later.short base (by omega)
  either fuel := by
    rw [show moves + 1 + fuel = moves + fuel + 1 by omega]
    obtain gone | same := begins (moves + fuel)
    · exact .inl gone
    · simp only [same]
      exact later.either fuel
  long {fuel} base many := by
    rw [show moves + 1 + fuel = moves + fuel + 1 by omega, surely (moves + fuel) base (by omega)]
    exact later.long base (by omega)

/-- What a computation delivers on its own it delivers to any rest. -/
theorem delivers_of_exits
    (shallow : ∀ c base, c.delivered? = none → allowed (c.onto base) = allowed c) {c : Control}
    {w w' : World} {s : Store} {v : Value} (held : c.unclaimed = true)
    (exits : runWhile allowed cx fuel c w = .ok (.exit s v) w') :
    ∃ moves < fuel, Delivers allowed cx c w s v w' moves fuel := by
  induction fuel generalizing c w with
  | zero => cases exits
  | succ fuel ih =>
    by_cases fine : allowed c = true
    case neg =>
      rw [runWhile, if_neg fine] at exits
      cases exits
    rw [runWhile_succ fine] at exits
    cases delivered : c.delivered? with
    | some result =>
      obtain ⟨s', v'⟩ := result
      obtain rfl := c.eq_of_delivered delivered
      cases exits
      refine ⟨0, by omega, nofun, fun {less} base none => ?_, fun more => .inr fun base => ?_,
        fun {more} base _ => ?_⟩
      · obtain rfl : less = 0 := by omega
        exact ⟨_, rfl⟩
      · rw [Nat.zero_add]
        rfl
      · rw [Nat.zero_add]
        rfl
    | none =>
      cases moved : advance cx c w with
      | error e w₁ =>
        rw [bind_of_error moved] at exits
        cases exits
      | ok move w₁ =>
        rw [bind_of_ok moved] at exits
        have begins (fuel : Nat) (base : Rest) : runWhile allowed cx (fuel + 1) (c.onto base) w =
            goOn allowed cx fuel (move.onto base) w₁ := by
          rw [runWhile_succ ((shallow c base delivered).trans fine), advance_onto held delivered,
            map_eq_pure_bind, bind_assoc, bind_of_ok moved]
          rfl
        have held := advance_unclaimed held delivered ⟨w, w₁, moved⟩
        cases move with
        | go next =>
          obtain ⟨moves, less, later⟩ := ih held exits
          exact ⟨moves + 1, by omega,
            later.before (fun fuel => .inr (begins fuel)) fun fuel base _ => begins fuel base⟩
        | rest step =>
          cases exits
          have delivers := delivered_of_exit ⟨w, w', moved⟩
          rw [delivered] at delivers
          cases delivers
        | infer i s' k =>
          cases inferred : answerWhile allowed cx fuel i s' w₁ with
          | error e w₂ =>
            rw [goOn, bind_of_error inferred] at exits
            cases exits
          | ok m w₂ =>
            rw [goOn, bind_of_ok inferred] at exits
            obtain ⟨moves, less, later⟩ := ih (c := .give k s' (.marginal m)) held exits
            have onward {more : Nat} (base : Rest) (answered : answerWhile allowed cx more i s' w₁ = .ok m w₂) :
                runWhile allowed cx (more + 1) (c.onto base) w =
                  runWhile allowed cx more ((Control.give k s' (.marginal m)).onto base) w₂ := by
              rw [begins]
              exact bind_of_ok answered
            refine ⟨moves + 1, by omega, later.before (fun more => ?_) fun more base many =>
              onward base (answerWhile_settled inferred many)⟩
            -- With less fuel the inference may give up, and then so does the run above every rest.
            obtain ⟨w₃, gone⟩ | answered := answerWhile_either inferred more
            · refine .inl fun base => ⟨w₃, ?_⟩
              rw [begins]
              exact bind_of_error gone
            · exact .inr fun base => onward base answered

end Machine

end ProbCore
