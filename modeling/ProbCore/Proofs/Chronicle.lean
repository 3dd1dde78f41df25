import ProbCore.Proofs.SharedRecords
import ProbCore.Proofs.SharedStrategies
import ProbCore.Proofs.StrategyTracking

/-! The machine with a chronicle of what it does: each of its moves, in the world where it was made,
and each step of a program that was handed to a strategy. With or without a chronicle the machine
does the same. Between two moves only strategies are at work, and they leave the records of passes
and parameters as they are, so whatever is known of single moves can be told of whole processes. -/

namespace ProbCore

/-- A move of the machine, in the world where it was made. -/
structure Moved where
  context : Machine.Context
  control : Control
  before : World

namespace Moved

def outcome (m : Moved) : EStateM.Result Failure World Move :=
  Machine.advance m.context m.control m.before

def after (m : Moved) : World := ended m.outcome

end Moved

/-- A step handed to a strategy. `depth` counts the inferences that were under way around it. -/
structure Handed where
  depth : Nat
  step : Step Rest Dist Float

/-- A world and what has happened in it, latest first. -/
structure Chronicle where
  world : World
  moves : List Moved
  handed : List Handed

/-- Nothing has happened yet. -/
def Chronicle.start (w : World) : Chronicle := ⟨w, [], []⟩

abbrev Chronicled := EStateM Failure Chronicle

namespace Chronicled

variable {α β : Type}

/-- What is no move is not written down. -/
def quiet (act : Run α) : Chronicled α := fun x =>
  match act x.world with
  | .ok a w => .ok a { x with world := w }
  | .error e w => .error e { x with world := w }

def moving (cx : Machine.Context) (control : Control) : Chronicled Move := do
  modify fun x => { x with moves := ⟨cx, control, x.world⟩ :: x.moves }
  quiet (Machine.advance cx control)

def tell (h : Handed) : Chronicled Unit := modify fun x => { x with handed := h :: x.handed }

def handing (depth : Nat) (act : Chronicled (Step Rest Dist Float)) :
    Chronicled (Step Rest Dist Float) := do
  let step ← act
  tell ⟨depth, step⟩
  return step

/-- Puts a strategy in charge while something runs, whatever comes of it. -/
def installed (a : Active) : Chronicled α → Chronicled α :=
  bracket (fun x => { x with world.strategies := a :: x.world.strategies })
    fun _ x => { x with world.strategies := x.world.strategies.tail }

instance : Host Chronicled Dist Float where
  fail := throw
  note n := quiet (Run.note n)
  unlessDegenerate := caught
  nested act := do
    let a ← quiet Run.current
    let key ← quiet Run.splitKey
    installed { title := "SMC", key := some key, address := a.address, picks := none } act
  enumerable := Dist.enumerable
  support d := quiet (Run.lift d.support)
  logDensity d v := quiet (Run.lift (d.logDensity v))
  draw d := do quiet (Run.lift (d.draw (← quiet Run.splitKey)))
  logUniform := do return (← quiet Run.splitKey).logUniform
  offset := do return (← quiet Run.splitKey).uniform 0
  indexBelow n := do return (← quiet Run.splitKey).below n
  categorical weights n := quiet (Run.categorical weights n)

open Machine

/-- Runs the machine at some depth of nested inferences, one deeper inside an inference. -/
def run (cx : Context) : Nat → Nat → Control → Chronicled (Step Rest Dist Float)
  | _, 0, _ => throw .outOfFuel
  | depth, fuel + 1, control => do
    match ← moving cx control with
    | .go next => run cx depth fuel next
    | .rest step => return step
    | .infer i s k => do
      let m ← installed i.active (i.strategy.estimate
        (fun k s v => handing (depth + 1) (run cx (depth + 1) fuel (.give k s v))) fuel i.entry s)
      run cx depth fuel (.give k s (.marginal m))

/-- Resumes what remains of a run for the strategy at this depth. -/
def resume (cx : Context) (depth fuel : Nat) : Resume Chronicled Rest Dist Float :=
  fun k s v => handing depth (run cx depth fuel (.give k s v))

/-- The answer of a strategy at this depth. -/
def answer (cx : Context) (depth fuel : Nat) (i : Inference) (s : Store) :
    Chronicled (Marginal Value Float) :=
  installed i.active (i.strategy.estimate (resume cx depth fuel) fuel i.entry s)

theorem run_succ (cx : Context) (depth fuel : Nat) (control : Control) :
    run cx depth (fuel + 1) control = (do
      match ← moving cx control with
      | .go next => run cx depth fuel next
      | .rest step => return step
      | .infer i s k => do
        let m ← answer cx (depth + 1) fuel i s
        run cx depth fuel (.give k s (.marginal m))) := rfl

section

variable {act : Run α} {x : Chronicle} {w : World}

theorem quiet_of_ok {a : α} (ran : act x.world = .ok a w) :
    quiet act x = .ok a { x with world := w } := by rw [quiet, ran]

theorem quiet_of_error {e : Failure} (failed : act x.world = .error e w) :
    quiet act x = .error e { x with world := w } := by rw [quiet, failed]

end

end Chronicled

/-- Each move began with the records that the one before it left, the first of them with these. -/
inductive Succession (since : Records) : List Moved → Records → Prop where
  | start : Succession since [] since
  | move {moves : List Moved} (m : Moved) (before : Succession since moves m.before.records) :
      Succession since (m :: moves) m.after.records

theorem Succession.split {since : Records} {moves later : List Moved} {m : Moved}
    {earlier : List Moved} {records : Records} (succession : Succession since moves records)
    (split : moves = later ++ m :: earlier) : Succession since earlier m.before.records := by
  induction succession generalizing later with
  | start => simp at split
  | move latest before ih =>
    cases later with
    | nil =>
      obtain ⟨rfl, rfl⟩ := List.cons.inj split
      exact before
    | cons _ later => exact ih (List.cons.inj split).2

/-- What is true of the moves made so far and of the world, and stays true whatever strategies do between two
moves. -/
structure Lasting (I : List Moved → World → Prop) : Prop where
  install {moves : List Moved} {w : World} (strategies : List Active) : I moves w → I moves { w with strategies }
  note {moves : List Moved} {w : World} (n : Notice) : I moves w →
    I moves { w with notices := n :: w.notices }
  move {moves : List Moved} (m : Moved) : I moves m.before → I (m :: moves) m.after

/-- A chronicle beside the world itself, with something known of both. -/
def recounting (I : List Moved → World → Prop) : Tie Unit Chronicle World where
  place := id
  holds := fun _ x w => x.world = w ∧ I x.moves x.world

/-- A chronicle in which each move began with the records that the one before it left. -/
abbrev chronicling (since : Records) : Tie Unit Chronicle World :=
  recounting fun moves w => Succession since moves w.records

theorem succession_lasting (since : Records) : Lasting fun moves w => Succession since moves w.records :=
  ⟨fun _ held => held, fun _ held => held, fun m before => .move m before⟩

/-- A world of which something is known. -/
def knowing (J : World → Prop) : Tie Unit World World := ⟨id, fun _ w w' => w = w' ∧ J w⟩

section

variable {α β : Type} {φ : α → β} {since : Records} {I : List Moved → World → Prop}

theorem Lasting.sharing (lasting : Lasting I) (moves : List Moved) : (knowing (I moves)).Sharing where
  same := by
    rintro _ w _ ⟨rfl, _⟩
    rfl
  install strategies := by
    rintro ⟨rfl, held⟩
    exact ⟨rfl, lasting.install strategies held⟩
  note n := by
    rintro ⟨rfl, held⟩
    exact ⟨rfl, lasting.note n held⟩

theorem quiet_agree {act : Run α} {x : Chronicle} (held : I x.moves (ended (act x.world))) :
    (recounting I).Agree () id (Chronicled.quiet act x) (act x.world) := by
  cases ran : act x.world with
  | ok a w =>
    rw [ran] at held
    rw [Chronicled.quiet_of_ok ran]
    exact ⟨rfl, rfl, held⟩
  | error e w =>
    rw [ran] at held
    rw [Chronicled.quiet_of_error ran]
    exact ⟨.same e, rfl, held⟩

theorem quiet_recounting {act : Run α} (mirrors : ∀ moves, Mirrors (knowing (I moves)) id act act) :
    Mirrors (recounting I) id (Chronicled.quiet act) act := by
  rintro _ x _ ⟨rfl, held⟩
  exact quiet_agree (mirrors x.moves () x.world x.world ⟨rfl, held⟩).holds.2

theorem Run.Leaves.chronicled {act : Run α} (leaves : Run.Leaves act) :
    Mirrors (chronicling since) id (Chronicled.quiet act) act := by
  rintro _ x _ ⟨rfl, succession⟩
  exact quiet_agree (I := fun moves w => Succession since moves w.records)
    ((leaves x.world).symm ▸ succession)

theorem handing_recounting {depth : Nat} {act : Chronicled (Step Rest Dist Float)}
    {act' : Run (Step Rest Dist Float)} (mirrors : Mirrors (recounting I) id act act') :
    Mirrors (recounting I) id (Chronicled.handing depth act) act' := by
  rw [← bind_pure act']
  refine mirrors.bind fun step => ?_
  rintro _ x _ ⟨rfl, held⟩
  exact ⟨rfl, rfl, held⟩

namespace Lasting

variable (lasting : Lasting I)
include lasting

theorem installed {act : Chronicled α} {act' : Run β} (a : Active)
    (mirrors : Mirrors (recounting I) φ act act') :
    Mirrors (recounting I) φ (Chronicled.installed a act) (Run.installed a act') := by
  rintro _ x _ ⟨rfl, held⟩
  rw [Run.installed_eq]
  refine mirrors.bracket_agree (i := ()) rfl ⟨rfl, lasting.install _ held⟩ ?_
  rintro x' _ ⟨rfl, held⟩
  exact ⟨rfl, lasting.install _ held⟩

theorem splitKey : Mirrors (recounting I) id (Chronicled.quiet Run.splitKey) Run.splitKey :=
  quiet_recounting fun moves => (lasting.sharing moves).splitKey

/-- The chronicle answers strategies as the world does. -/
theorem serves : (recounting I).Serves (D := Dist) (R := Float) where
  fail moved := .throw moved
  note n := quiet_recounting fun moves => (lasting.sharing moves).serves.note n
  unlessDegenerate mirrors := by
    rw [Run.unlessDegenerate_eq]
    exact mirrors.caught
  nested mirrors := (quiet_recounting fun moves => (lasting.sharing moves).current).bind fun _ =>
    lasting.splitKey.bind fun _ => lasting.installed _ mirrors
  enumerable _ := rfl
  support _ := quiet_recounting fun _ => Run.lift_mirrors _
  logDensity _ _ := quiet_recounting fun _ => Run.lift_mirrors _
  draw _ := lasting.splitKey.bind fun _ => quiet_recounting fun _ => Run.lift_mirrors _
  logUniform := lasting.splitKey.bind fun key => .pure key.logUniform
  offset := lasting.splitKey.bind fun key => .pure (key.uniform 0)
  indexBelow n := lasting.splitKey.bind fun key => .pure (key.below n)
  categorical weights n := quiet_recounting fun moves => (lasting.sharing moves).serves.categorical weights n

theorem moving (cx : Machine.Context) (control : Control) :
    Mirrors (recounting I) id (Chronicled.moving cx control) (Machine.advance cx control) := by
  rintro _ x _ ⟨rfl, held⟩
  exact quiet_agree (x := { x with moves := ⟨cx, control, x.world⟩ :: x.moves })
    (lasting.move ⟨cx, control, x.world⟩ held)

end Lasting

namespace Chronicled

open Machine

variable (lasting : Lasting I)
include lasting

/-- A run does the same with a chronicle. -/
theorem run_mirrors (cx : Context) (depth fuel : Nat) (control : Control) :
    Mirrors (recounting I) id (run cx depth fuel control) (Machine.run cx fuel control) := by
  -- An inner strategy resumes the program with less fuel, so the induction covers any nesting.
  induction fuel generalizing depth control with
  | zero => exact .throw (.same _)
  | succ fuel ih =>
    rw [run_succ, Machine.run]
    refine (lasting.moving cx control).bind fun move => ?_
    cases move with
    | go next => exact ih depth next
    | rest step => exact .pure step
    | infer i s k =>
      refine Mirrors.bind (φ := id) (lasting.installed _ ?_) fun m => ih depth _
      exact i.strategy.estimate_mirrors lasting.serves
        (.unmoved fun k s v => handing_recounting (ih (depth + 1) _)) fuel i.entry s

theorem answer_mirrors (cx : Context) (depth fuel : Nat) (i : Inference) (s : Store) :
    Mirrors (recounting I) id (answer cx depth fuel i s)
      (Run.installed i.active (i.strategy.estimate (Machine.resume cx fuel) fuel i.entry s)) :=
  lasting.installed i.active (i.strategy.estimate_mirrors lasting.serves
    (.unmoved fun _ _ _ => handing_recounting (run_mirrors lasting cx depth fuel _)) fuel i.entry s)

end Chronicled

/-- What came of a computation with a chronicle, without the chronicle. -/
def unchronicled : EStateM.Result Failure Chronicle α → EStateM.Result Failure World α
  | .ok a x => .ok a x.world
  | .error e x => .error e x.world

theorem unchronicled_eq {x : Chronicled α} {y : Run α}
    (mirrors : ∀ since, Mirrors (chronicling since) id x y) (w : World) :
    unchronicled (x (.start w)) = y w := by
  obtain ⟨a, _, _, ran, ran', rfl, _⟩ | ⟨e, _, _, _, failed, failed', moved, rfl, _⟩ :=
    (mirrors w.records () (.start w) w ⟨rfl, .start⟩).cases
  · rw [ran, ran']
    rfl
  · rw [failed, failed', moved.eq_of_id]
    rfl

end

/-- Something done in a process: a run of the machine from any control under the strategies in
charge, the answer of a strategy, or anything that leaves the records as they are, such as putting
other strategies in charge. A strategy of any kind is a list of these, with whatever runs it resumes
in whatever order. -/
inductive Errand where
  | run (cx : Machine.Context) (fuel : Nat) (control : Control)
  | answer (cx : Machine.Context) (fuel : Nat) (i : Inference) (s : Store)
  | change (f : World → World) (kept : ∀ w, (f w).records = w.records)

/-- The world after an errand, whatever came of it. -/
def World.after (w : World) : Errand → World
  | .run cx fuel control => ended (Machine.run cx fuel control w)
  | .answer cx fuel i s =>
    ended (Run.installed i.active (i.strategy.estimate (Machine.resume cx fuel) fuel i.entry s) w)
  | .change f _ => f w

def Chronicle.after (x : Chronicle) : Errand → Chronicle
  | .run cx fuel control => ended (Chronicled.run cx 0 fuel control x)
  | .answer cx fuel i s => ended (Chronicled.answer cx 0 fuel i s x)
  | .change f _ => { x with world := f x.world }

/-- The world after all that a process does. -/
def World.process (w : World) (errands : List Errand) : World := errands.foldl World.after w

def Chronicle.process (x : Chronicle) (errands : List Errand) : Chronicle :=
  errands.foldl Chronicle.after x

/-- What an errand that is no run does to the world leaves true what is known. -/
def Errand.Spares (I : List Moved → World → Prop) : Errand → Prop
  | .change f _ => ∀ moves w, I moves w → I moves (f w)
  | _ => True

section

variable {I : List Moved → World → Prop} (lasting : Lasting I)
include lasting

theorem after_recounted {x : Chronicle} {w : World} (held : (recounting I).holds () x w) {errand : Errand}
    (spared : errand.Spares I) : (recounting I).holds () (x.after errand) (w.after errand) := by
  cases errand with
  | run cx fuel control => exact (Chronicled.run_mirrors lasting cx 0 fuel control () x w held).holds
  | answer cx fuel i s => exact (Chronicled.answer_mirrors lasting cx 0 fuel i s () x w held).holds
  | change f _ =>
    obtain ⟨rfl, held⟩ := held
    exact ⟨rfl, spared _ _ held⟩

/-- A process comes to the same world with a chronicle, and what was known at first is known in the end. -/
theorem process_recounted {w : World} (begun : I [] w) {errands : List Errand}
    (spared : ∀ errand ∈ errands, errand.Spares I) :
    let x := Chronicle.process (.start w) errands
    x.world = w.process errands ∧ I x.moves x.world := by
  have grown : ∀ x w', (recounting I).holds () x w' →
      (recounting I).holds () (x.process errands) (w'.process errands) := by
    induction errands with
    | nil => exact fun _ _ held => held
    | cons errand errands ih =>
      obtain ⟨first, rest⟩ := List.forall_mem_cons.mp spared
      exact fun _ _ held => ih rest _ _ (after_recounted lasting held first)
  exact grown (.start w) w ⟨rfl, begun⟩

end

/-- A process comes to the same world with a chronicle, which then tells how the records of that
world came to be. -/
theorem process_chronicled (w : World) (errands : List Errand) :
    let x := Chronicle.process (.start w) errands
    x.world = w.process errands ∧ Succession w.records x.moves x.world.records := by
  refine process_recounted (succession_lasting w.records) .start fun errand _ => ?_
  cases errand with
  | change f kept =>
    intro moves w' succession
    rwa [kept w']
  | _ => trivial

end ProbCore
