import ProbCore.Program.Workbench
import ProbCore.Proofs.InstanceEstimates
import ProbCore.Proofs.PlainRuns

/-! An instance of a strategy carries nothing over to an estimate but its key. Calls before it, which may have failed
in the middle of an execution, leave fields behind that it does not read, and a world that a plain program does not
see. -/

namespace ProbCore

/-- What came of a computation, without the state that it left. -/
def answered {σ α : Type} : EStateM.Result Failure σ α → Except Failure α
  | .ok a _ => .ok a
  | .error e _ => .error e

theorem answered_installed {α : Type} (a : Active) (x : Run α) (w : World) :
    answered (Run.installed a x w) = answered (x { w with strategies := a :: w.strategies }) := by
  unfold Run.installed
  cases x { w with strategies := a :: w.strategies } <;> rfl

/-- In two worlds with the same strategy in charge, what mirrors itself gives the same answer. -/
theorem answered_inCharge {α : Type} {x : Run α} (mirrors : Mirrors inCharge id x x) (a : Active) {w w' : World}
    (bare : w.memos = #[]) (bare' : w'.memos = #[]) :
    answered (Run.installed a x w) = answered (Run.installed a x w') := by
  rw [answered_installed, answered_installed]
  have held : InCharge (w.strategies, w'.strategies) { w with strategies := a :: w.strategies }
      { w' with strategies := a :: w'.strategies } := ⟨⟨a, rfl, rfl⟩, bare, bare'⟩
  obtain ⟨b, v, v', ran, ran', _⟩ | ⟨e, e', v, v', ran, ran', moved, _⟩ := (mirrors _ _ _ held).cases
  · rw [ran, ran']
    rfl
  · rw [ran, ran', moved.eq_of_id]
    rfl

/-- A call on an instance, with what it is given: an estimate from a store, or a trace with a limit of factors. -/
inductive Call where
  | estimate (s : Store)
  | extend (t : ProgramTrace) (limit : Option Nat)
  | regenerate (t : ProgramTrace) (limit : Option Nat)
  | move (t : ProgramTrace) (limit : Option Nat)

/-- The trace of a call is one of a plain program. -/
def Call.plain : Call → Prop
  | estimate _ => True
  | extend t _ | regenerate t _ | move t _ => t.Within (·.plain = true)

namespace Workbench

def perform (b : Workbench) : Call → Work Unit
  | .estimate s => discard { b with store := s }.estimate
  | .extend t limit => discard (b.extend t limit)
  | .regenerate t limit => discard (b.regenerate t limit)
  | .move t limit => discard (b.move t limit)

/-- What is left by calls one after the other, whether they return or fail. -/
def after (b : Workbench) (calls : List Call) (x : Kept × World) : Kept × World :=
  calls.foldl (fun x call => ended (b.during (b.perform call) x)) x

/-- An estimate from a store, by an instance that is given a key. -/
def estimateWith (b : Workbench) (key : Option Random.Key) (s : Store) : Use (Marginal Value Float) :=
  fun (kept, w) => b.during { b with store := s }.estimate ({ kept with key }, w)

theorem ended_discard {σ α : Type} (x : EStateM Failure σ α) (w : σ) : ended ((discard x) w) = ended (x w) := by
  change ended (EStateM.map (Function.const α ()) x w) = _
  unfold EStateM.map
  cases x w <;> rfl

/-- What a recording method leaves is what its computation leaves, or all as it was. -/
theorem recording_tableless (b : Workbench) {α : Type} {x : Work α} {y : Run α} {f : Instance.Fields Rest Dist Float}
    (answers : Instance.Answers f x y) {w : World} (bare : w.memos = #[]) (leaves : (ended (y w)).memos = #[]) :
    (ended (discard (b.recording x) (f, w))).2.memos = #[] := by
  rw [ended_discard]
  unfold recording
  split
  · rwa [answers.ended_host]
  · exact bare

section

variable {b : Workbench} (plain : b.context.program.plain) (begins : b.entry.plain = true)

include plain begins

/-- No call of a plain program makes a table. -/
theorem perform_tableless {call : Call} (taken : call.plain) (f : Instance.Fields Rest Dist Float) {w : World}
    (ready : w.Ready) : (ended (b.perform call (f, w))).2.memos = #[] := by
  cases call with
  | estimate s =>
    have answers : Instance.Answers f { b with store := s }.estimate
        (b.strategy.estimate b.resume Session.fuel b.entry s) := Instance.estimate_answers b.entry s b.strategy f
    rw [perform, ended_discard, answers.ended_host]
    exact (Machine.plain_estimate_inCharge plain Session.fuel begins b.strategy s).makes_no_table ready
  | extend t limit =>
    exact b.recording_tableless ((Instance.extend_heedless t limit).answers f) ready.tableless
      (Machine.plain_extend_makes_no_table plain taken limit ready)
  | regenerate t limit =>
    exact b.recording_tableless ((Instance.regenerate_heedless t limit).answers f) ready.tableless
      (Machine.plain_regenerate_makes_no_table plain taken limit ready)
  | move t limit =>
    exact b.recording_tableless ((Instance.move_heedless t limit).answers f) ready.tableless
      (Machine.plain_move_makes_no_table plain taken limit ready)

theorem after_tableless {calls : List Call} (taken : ∀ call ∈ calls, call.plain) {kept : Kept} {w : World}
    (bare : w.memos = #[]) : (b.after calls (kept, w)).2.memos = #[] := by
  induction calls generalizing kept w with
  | nil => exact bare
  | cons call calls ih =>
    obtain ⟨first, later⟩ := List.forall_mem_cons.mp taken
    have made := perform_tableless plain begins first kept.fields
      (w := { w with strategies := b.active kept.key :: w.strategies }) ⟨List.cons_ne_nil _ _, bare⟩
    refine ih later ?_
    unfold during
    dsimp only
    generalize b.perform call (kept.fields, _) = r at made ⊢
    cases r <;> exact made

end

/-- A call that does what a computation does answers what the computation answers with the instance in charge. -/
theorem during_answers {α : Type} (b : Workbench) (kept : Kept) {x : Work α} {y : Run α}
    (answers : Instance.Answers kept.fields x y) (w : World) :
    answered (b.during x (kept, w)) = answered (Run.installed (b.active kept.key) y w) := by
  have met := answers { w with strategies := b.active kept.key :: w.strategies }
  unfold during Run.installed
  dsimp only
  generalize x (kept.fields, _) = r at met ⊢
  generalize y _ = r' at met ⊢
  cases r <;> cases r'
  · obtain ⟨_, rfl⟩ := met
    rfl
  · cases met
  · cases met
  · obtain ⟨rfl, _⟩ := met
    rfl

/-- Whatever an instance keeps, an estimate answers what an inference concludes. -/
theorem estimateWith_concludes (b : Workbench) (key : Option Random.Key) (s : Store) (kept : Kept) (w : World) :
    answered (b.estimateWith key s (kept, w)) =
      answered (Session.conclude b.context ⟨b.active key, b.strategy, b.entry⟩ s w) := by
  have answers : Instance.Answers kept.fields { b with store := s }.estimate
      (b.strategy.estimate b.resume Session.fuel b.entry s) :=
    Instance.estimate_answers b.entry s b.strategy kept.fields
  exact b.during_answers { kept with key } answers w

/-- An estimate of a plain program with a given key and store returns the same marginal, or fails with the same error,
as on a new instance, whatever calls were made on the instance before, and in whatever world without remembered
results. -/
theorem estimate_as_new {b : Workbench} (plain : b.context.program.plain) (begins : b.entry.plain = true)
    {calls : List Call} (taken : ∀ call ∈ calls, call.plain) (first key : Option Random.Key) (s : Store) {w w' : World}
    (bare : w.memos = #[]) (bare' : w'.memos = #[]) :
    answered (b.estimateWith key s (b.after calls (.new first, w))) =
      answered (b.estimateWith key s (.new key, w')) := by
  have left : (b.after calls (.new first, w)).2.memos = #[] := after_tableless plain begins taken bare
  generalize b.after calls (.new first, w) = x at left ⊢
  obtain ⟨kept, v⟩ := x
  rw [estimateWith_concludes, estimateWith_concludes]
  exact answered_inCharge (Machine.plain_estimate_inCharge plain Session.fuel begins b.strategy s) (b.active key) left
    bare'

/-- A coin and a factor, after which the program fails if its store tells it to stop. -/
def stoppable : Workbench :=
  let body : Comp := .bind "coin" (.sample none (.family "bernoulli" [.literal (.float 0.5)]))
    (.sequence [.factor none (.literal (.float 1)),
      .choose (.contains (.literal (.text "stop"))) (.raise "stopped") (.ret (.var "coin"))])
  ⟨⟨⟨[("main", ⟨[], body⟩)]⟩, []⟩, "AsyncPF", .root, .asyncpf ⟨.count 10, 4, 100⟩, .entry (.function "main") .root,
    .empty⟩

/-- An estimate that fails in the middle of an execution, and an execution that is left at its factor. -/
def interrupted : List Call :=
  [.estimate ⟨Table.ofList [(.text "stop", .bool true)]⟩, .extend (.start stoppable.entry .empty) (some 1)]

theorem interrupted_as_new :
    stoppable.context.program.plain ∧ stoppable.entry.plain = true ∧ (∀ call ∈ interrupted, call.plain) ∧
      World.start.memos = #[] ∧
      answered (stoppable.estimateWith (some (.ofSeed 1)) .empty
          (stoppable.after interrupted (.new (some (.ofSeed 0)), .start))) =
        answered (stoppable.estimateWith (some (.ofSeed 1)) .empty (.new (some (.ofSeed 1)), .start)) := by
  have plain : stoppable.context.program.plain := by
    refine Program.plain_of_all fun x member => ?_
    obtain rfl := List.mem_singleton.mp member
    rfl
  have taken : ∀ call ∈ interrupted, call.plain := by
    refine List.forall_mem_cons.mpr ⟨trivial, List.forall_mem_singleton.mpr ⟨nofun, ?_⟩⟩
    rintro k ⟨⟩
    rfl
  exact ⟨plain, rfl, taken, rfl, estimate_as_new plain rfl taken _ _ _ rfl rfl⟩

end Workbench

end ProbCore
