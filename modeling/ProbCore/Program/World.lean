import ProbCore.Cache
import ProbCore.Dist.Draw
import ProbCore.Notice
import ProbCore.Random.Selection
import ProbCore.Strategy.Host
import ProbCore.Strategy.Particle
import ProbCore.Table

/-! All that programs share besides their stores: the strategies in charge, remembered
results, minibatches and parameters, and what was reported. It stays as it is when a
computation fails. -/

namespace ProbCore

/-- A strategy in charge. `picks` lists the answers it will give when asked which elements of
a data set to visit; without them it visits all. -/
structure Active where
  title : String
  key : Option Random.Key
  address : Address
  picks : Option (List Value)

/-- A function whose results are remembered. `announced` says that its growth was reported. -/
structure Memo where
  function : Value
  cache : Cache Value
  announced : Bool

/-- What a strategy with picks was asked or told. -/
inductive SelectionCall where
  | fetch (previous : Option (List Int)) (size : Nat) (batch : Value) (address : Address)
  | final (address : Address)

/-- Strategies are listed innermost first, reports and events latest first. -/
structure World where
  strategies : List Active
  memos : Array Memo
  minibatches : Table Address (List Int)
  params : Table Address Value
  sizeNotice : Nat
  notices : List Notice
  events : List Value
  eventCount : Nat
  calls : List SelectionCall

/-- The size at which an unbounded cache is reported. -/
def World.usualSizeNotice : Nat := 10000

def World.start : World := ⟨[], #[], ∅, ∅, usualSizeNotice, [], [], 0, []⟩

/-- Computations on the world that may fail. -/
abbrev Run := EStateM Failure World

namespace Run

variable {α : Type}

@[inline]
def lift : Except Failure α → Run α
  | .ok x => pure x
  | .error e => throw e

def note (n : Notice) : Run Unit := modify fun w => { w with notices := n :: w.notices }

/-- At most this many events are kept. -/
def mostEvents : Nat := 300

def emit (v : Value) : Run Unit :=
  modify fun w =>
    if w.eventCount < mostEvents then
      { w with events := v :: w.events, eventCount := w.eventCount + 1 }
    else w

/-- The strategy in charge. -/
def current : Run Active := do
  match (← get).strategies with
  | a :: _ => return a
  | [] => throw (.inference .noStrategy)

def updateCurrent (f : Active → Active) : Run Unit :=
  modify fun w =>
    match w.strategies with
    | a :: rest => { w with strategies := f a :: rest }
    | [] => w

/-- Puts a strategy in charge while something runs, whatever comes of it. -/
def installed (a : Active) (act : Run α) : Run α := fun w =>
  match act { w with strategies := a :: w.strategies } with
  | .ok x w' => .ok x { w' with strategies := w'.strategies.tail }
  | .error e w' => .error e { w' with strategies := w'.strategies.tail }

/-- A fresh key from the strategy in charge, which keeps the other half of the split. -/
def splitKey : Run Random.Key := do
  let a ← current
  match a.key with
  | none => throw (.configuration (.missingKey a.title))
  | some key =>
    let (kept, fresh) := key.split
    updateCurrent fun a => { a with key := some kept }
    return fresh

/-- An address as seen by the strategy in charge: the part below where it was installed. -/
def relative (a : Address) : Run Address := do
  match (← get).strategies with
  | [] => return a
  | s :: _ => return a.within s.address

/-- The elements that the strategy in charge picks, and the rest of its picks kept. -/
def fetch (previous : Option (List Int)) (size : Nat) (batch : Value) (a : Address) :
    Run Value := do
  let active ← current
  match active.picks with
  | none => return .list []
  | some picks =>
    modify fun w => { w with calls := .fetch previous size batch a :: w.calls }
    match picks with
    | [] => return .list []
    | pick :: rest =>
      updateCurrent fun active => { active with picks := some rest }
      return pick

/-- Tells the strategy in charge that a pass over a data set is complete. -/
def finishPass (a : Address) : Run Unit :=
  modify fun w =>
    match w.strategies with
    | { picks := some _, .. } :: _ => { w with calls := .final a :: w.calls }
    | _ => w

def tryDegenerate (act : Run α) : Run (Option α) := fun w =>
  match act w with
  | .ok x w' => .ok (some x) w'
  | .error .degenerate w' => .ok none w'
  | .error e w' => .error e w'

def categorical (weights : List Float) (n : Nat) : Run (List Nat) := do
  lift ((← splitKey).multinomial weights n)

def nested (act : Run α) : Run α := do
  let a ← current
  let key ← splitKey
  installed { title := "SMC", key := some key, address := a.address, picks := none } act

instance : Host Run Dist Float where
  fail := throw
  note := note
  unlessDegenerate := tryDegenerate
  nested := nested
  enumerable := Dist.enumerable
  support d := lift d.support
  logDensity d v := lift (d.logDensity v)
  draw d := do lift (d.draw (← splitKey))
  logUniform := do return (← splitKey).logUniform
  offset := do return (← splitKey).uniform 0
  indexBelow n := do return (← splitKey).below n
  categorical := categorical

end Run

end ProbCore
