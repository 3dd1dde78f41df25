import ProbCore.Proofs.MachineMoves

/-! The machine under observation. A watched run does what the run itself does, on the same world,
and keeps a record beside it: which strategy's turn it is as the calls are nested, to whom each
step was handed, and where in the tree of splits each key stands that a strategy holds or that a
draw has consumed. -/

namespace ProbCore

/-- A node of the tree of splits below some key: the turns that lead to it, latest first. The
second half of a split is the one given away. -/
abbrev Position := List Bool

/-- The key at a position. -/
def Random.Key.node (root : Random.Key) : Position → Random.Key
  | [] => root
  | false :: p => (root.node p).split.1
  | true :: p => (root.node p).split.2

/-- Neither is the other or lies below it. -/
def Apart (p q : Position) : Prop := ¬ p <:+ q ∧ ¬ q <:+ p

/-- A key that was consumed. Keys from elsewhere have no position. -/
structure SpentKey where
  position : Option Position
  key : Random.Key

/-- Where the keys stand that the installed strategies hold, innermost first, and those that were
consumed, latest first. -/
structure Ledger where
  held : List (Option Position)
  spent : List SpentKey

namespace Ledger

def positions (l : Ledger) : List Position :=
  l.held.reduceOption ++ (l.spent.map (·.position)).reduceOption

/-- No consumed key was consumed twice, or stands below another or below a key still held. -/
def Disjoint (l : Ledger) : Prop := l.positions.Pairwise Apart

/-- What the strategy in charge keeps of its key when it splits it, and what it gives away. -/
def part (l : Ledger) : Ledger × Option Position :=
  match l.held with
  | some p :: held => ({ l with held := some (false :: p) :: held }, some (true :: p))
  | _ => (l, none)

end Ledger

/-- A strategy that is installed, apart from what changes while it is. -/
structure Identity where
  title : String
  address : Address

def Active.identity (a : Active) : Identity := ⟨a.title, a.address⟩

/-- A step on its way to a handler: the strategy whose handler it is, among those around it, and
the strategies installed at that moment. -/
structure Handover where
  handlers : List Identity
  installed : List Identity

/-- A world and what was observed in it. `handlers` are the strategies whose estimates are under
way, innermost first, as the calls are nested; `past` are the earlier states of the ledger, and
`brought` the keys that the program passed itself. -/
structure Watched where
  world : World
  ledger : Ledger
  past : List Ledger
  handlers : List Identity
  handed : List Handover
  brought : List Random.Key

namespace Watched

/-- A world before anything is observed. -/
def start (w : World) : Watched :=
  ⟨w, ⟨[], []⟩, [], w.strategies.map Active.identity, [], []⟩

def turn (x : Watched) (l : Ledger) : Watched := { x with ledger := l, past := x.ledger :: x.past }

/-- All states of the ledger so far. -/
def ledgers (x : Watched) : List Ledger := x.ledger :: x.past

end Watched

abbrev Watch := EStateM Failure Watched

namespace Watch

variable {α : Type}

/-- What takes no key is only watched. -/
def quiet (act : Run α) : Watch α := fun x =>
  match act x.world with
  | .ok a w => .ok a { x with world := w }
  | .error e w => .error e { x with world := w }

/-- Splits the key of the strategy in charge. -/
def part : Watch (Option Position × Random.Key) := fun x =>
  match Run.splitKey x.world with
  | .ok key w => .ok (x.ledger.part.2, key) ({ x with world := w }.turn x.ledger.part.1)
  | .error e w => .error e { x with world := w }

/-- Consumes a fresh key. -/
def spend : Watch Random.Key := do
  let (position, key) ← part
  modify fun x => { x with ledger.spent := ⟨position, key⟩ :: x.ledger.spent }
  return key

/-- Puts a strategy in charge that holds the key at a position. -/
def install (position : Option Position) (a : Active) (act : Watch α) : Watch α := fun x =>
  match act (enter x) with
  | .ok b x' => .ok b (leave x x')
  | .error e x' => .error e (leave x x')
where
  enter (x : Watched) : Watched :=
    { x with
      world := { x.world with strategies := a :: x.world.strategies }
      handlers := a.identity :: x.handlers }.turn
    { x.ledger with held := position :: x.ledger.held }
  leave (x x' : Watched) : Watched :=
    { x' with
      world := { x'.world with strategies := x'.world.strategies.tail }
      handlers := x.handlers }.turn
    { x'.ledger with held := x'.ledger.held.tail }

/-- A key that the program passes itself, if it passes one. -/
def bring : Option Random.Key → Watch Unit
  | some key => modify fun x => { x with brought := key :: x.brought }
  | none => pure ()

/-- The key of an inference, and its position if it was taken from the strategy in charge. -/
def keyFor (key : Option Random.Key) : Watch (Option Position × Option Random.Key) := do
  match key, (← get).world.strategies with
  | some key, _ =>
    bring (some key)
    return (none, some key)
  | none, { key := some _, .. } :: _ =>
    let (position, key) ← part
    return (position, some key)
  | none, _ => return (none, none)

/-- Every step is handed to the handler whose turn it is. -/
def handing (act : Watch (Step Rest Dist Float)) : Watch (Step Rest Dist Float) := do
  let step ← act
  modify fun x =>
    { x with handed := ⟨x.handlers, x.world.strategies.map Active.identity⟩ :: x.handed }
  return step

instance : Host Watch Dist Float where
  fail := throw
  note n := quiet (Run.note n)
  unlessDegenerate := caught
  nested act := do
    let a ← quiet Run.current
    let (position, key) ← part
    install position { title := "SMC", key := some key, address := a.address, picks := none } act
  enumerable := Dist.enumerable
  support d := quiet (Run.lift d.support)
  logDensity d v := quiet (Run.lift (d.logDensity v))
  draw d := do quiet (Run.lift (d.draw (← spend)))
  logUniform := do return (← spend).logUniform
  offset := do return (← spend).uniform 0
  indexBelow n := do return (← spend).below n
  categorical weights n := do quiet (Run.lift ((← spend).multinomial weights n))

open Machine

variable (cx : Context)

/-- The first value of a parameter may consume a key. -/
def makeParam (c : ParamCall) : Watch Value :=
  if drawsStart c.start c.sd && c.key.isNone then do
    quiet (Machine.makeParam c.start c.mean c.sd (some (← spend)))
  else quiet (Machine.makeParam c.start c.mean c.sd c.key)

def param (c : ParamCall) : Watch Value := do
  bring c.key
  let rel ← quiet (Run.relative c.place)
  if !rel.isHashable then throw .illTyped
  match (← get).world.params.get? rel with
  | some v => return v
  | none =>
    let v ← makeParam c
    quiet (modify fun w => { w with params := w.params.insert rel v })
    quiet (Run.note (.registered rel))
    return v

/-- Sets up a strategy and puts it in charge of `body`. -/
def inferring (c : InferCall) (body : Inference → Watch α) : Watch α := do
  let method ← quiet (Run.lift (selected c.function c.method c.options))
  let (position, key) ← keyFor c.key
  let i ← quiet (ready c.place c.function method c.options none key)
  install position i.active (body i)

def run : Nat → Control → Watch (Step Rest Dist Float)
  | 0, _ => throw .outOfFuel
  | fuel + 1, .eval (.param t start mean sd seed) vars a s k => do
    let c ← quiet (Run.lift
      (ParamCall.read ⟨cx.program, cx.globals, vars, s, a⟩ t start mean sd seed))
    run fuel (.give k s (← param c))
  | fuel + 1, .eval (.infer t f method options) vars a s k => do
    let c ← quiet (Run.lift
      (InferCall.read ⟨cx.program, cx.globals, vars, s, a⟩ t f method options))
    let m ← inferring c fun i =>
      i.strategy.estimate (fun k s v => handing (run fuel (.give k s v))) fuel i.entry s
    run fuel (.give k s (.marginal m))
  | fuel + 1, control => do
    match ← quiet (advance cx control) with
    | .go next => run fuel next
    | .rest step => return step
    | .infer .. => throw .outOfFuel

def resume (fuel : Nat) : Resume Watch Rest Dist Float :=
  fun k s v => handing (run cx fuel (.give k s v))

/-- An inference with a strategy that holds the root of the tree. -/
def estimate (fuel : Nat) (i : Inference) (s : Store) : Watch (Marginal Value Float) :=
  install (i.active.key.map fun _ => []) i.active
    (i.strategy.estimate (resume cx fuel) fuel i.entry s)

end Watch

end ProbCore
