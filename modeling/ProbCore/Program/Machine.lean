import ProbCore.Data.Writer
import ProbCore.Dist.Array
import ProbCore.Program.Eval
import ProbCore.Program.World
import ProbCore.Strategy.Method

/-! The machine that runs programs. What remains to be done after a computation is kept as a
continuation, so a run can be suspended at a choice, kept, and resumed any number of times. -/

namespace ProbCore

/-- A pass over a data set: the elements still to visit and the results so far, latest
first. -/
structure Pass where
  data : List Value
  function : Value
  address : Address
  relative : Address
  remaining : List Int
  results : List Value

/-- What remains to be done with a value. At the outermost end stands the strategy that
receives the value of the program, or nobody. `entry` begins a program; `bind` and `sequence`
wait for a part of a computation, `replace` hands on an observed value, `remember` fills a
table, and `visit` goes on with a pass. -/
inductive Rest where
  | halt
  | deliver
  | entry (function : Value) (a : Address)
  | bind (name : String) (body : Comp) (vars : Vars) (a : Address) (k : Rest)
  | sequence (steps : List Comp) (vars : Vars) (a : Address) (k : Rest)
  | replace (value : Value) (k : Rest)
  | remember (table : Nat) (key : String) (k : Rest)
  | visit (pass : Pass) (k : Rest)

/-- What the machine does next: run a computation, call a function, or give a value to what
remains. -/
inductive Control where
  | eval (c : Comp) (vars : Vars) (a : Address) (s : Store) (k : Rest)
  | call (function : Value) (args : List Value) (a : Address) (s : Store) (k : Rest)
  | give (k : Rest) (s : Store) (value : Value)

/-- An inference inside a program, ready to run. -/
structure Inference where
  active : Active
  strategy : Strategy Float
  entry : Rest

/-- The outcome of one move of the machine. -/
inductive Move where
  | go (next : Control)
  | rest (step : Step Rest Dist Float)
  | infer (i : Inference) (s : Store) (k : Rest)

namespace Machine

/-- The program with the values that its free names stand for. -/
structure Context where
  program : Program
  globals : Vars

/-- A new table for a function. Bounds start at one. -/
def newMemo (function : Value) (bound : Value) : Run Value := do
  if !function.isCallable then throw .illTyped
  let bound ←
    match bound with
    | .absent => pure none
    | v =>
      match v.int? with
      | none => throw .illTyped
      | some n =>
        if n < 1 then throw (.configuration (.belowOne "max_size" v)) else pure (some n)
  let w ← get
  set { w with memos := w.memos.push ⟨function, .empty bound, false⟩ }
  return .memo w.memos.size (nameOf function)
where
  nameOf : Value → String
    | .function name | .memo _ name => name
    | _ => ""

def memoAt (table : Nat) : Run Memo := do
  match (← get).memos[table]? with
  | some m => return m
  | none => throw .illTyped

def setMemo (table : Nat) (m : Memo) : Run Unit :=
  modify fun w => { w with memos := w.memos.setIfInBounds table m }

/-- A call of a remembered function: the value it knows, or a run of the function that will
be remembered. -/
def callMemo (table : Nat) (args : List Value) (a : Address) (s : Store) (k : Rest) :
    Run Control := do
  let key ← Run.lift (Data.serialize (.tuple args))
  let m ← memoAt table
  if m.cache.contains key then
    let (v, cache) ← Run.lift (m.cache.get key)
    setMemo table { m with cache }
    return .give k s v
  else return .call m.function args a s (.remember table key k)

/-- Writes a result into its table. A result that is already there may differ; that is
reported, and the latest stays. -/
def remember (table : Nat) (key : String) (value : Value) : Run Unit := do
  let m ← memoAt table
  if m.cache.contains key then
    Run.note (.alreadyKnown key)
    let old ← Run.lift (Data.serialize (← Run.lift (m.cache.peek key)))
    let new ← Run.lift (Data.serialize value)
    if old != new then Run.note (.diverged key old new)
  let (cache, dropped) ← Run.lift (m.cache.put key value)
  if let some dropped := dropped then Run.note (.evicted dropped)
  let m := { m with cache }
  if cache.bound.isNone && !m.announced && (← get).sizeNotice ≤ cache.size then
    setMemo table { m with announced := true }
    Run.note (.grown (newMemo.nameOf m.function) cache.size)
  else setMemo table m

/-- Positions as integers, each inside a data set of the given size. -/
def checkIndices (given : Value) (size : Nat) : Run (List Int) := do
  let notIndices : Failure := .inference (.notIndices given)
  match given.items? with
  | none => throw notIndices
  | some xs =>
    let indices ← xs.mapM fun x =>
      match x.toInt with
      | .ok n => pure n
      | .error .illTyped => throw notIndices
      | .error e => throw e
    for n in indices do
      if n < 0 || (size : Int) ≤ n then throw (.inference (.indexOutside n size))
    return indices

/-- Goes on with a pass: the next element, or the results when none is left. -/
def nextVisit (pass : Pass) (s : Store) (k : Rest) : Run Control := do
  match pass.remaining with
  | [] =>
    Run.finishPass pass.relative
    return .give k s (.tuple pass.results.reverse)
  | i :: remaining =>
    match pass.data[i.toNat]? with
    | none => throw .noSuchPosition
    | some x =>
      return .call pass.function [x, .int i] (pass.address.element i) s
        (.visit { pass with remaining } k)

/-- Begins a pass over the elements that the strategy in charge selects, or over all of
them. The selection is recorded for the address. -/
def beginPass (a : Address) (data function : Value) (batch : Option Value) (s : Store)
    (k : Rest) : Run Control := do
  if !data.isSequence || !function.isCallable then throw .illTyped
  let items := data.items?.getD []
  let n := items.length
  let batch ←
    match batch with
    | none | some .absent => pure none
    | some v =>
      match v.int? with
      | none => throw .illTyped
      | some b =>
        if 0 < b && b ≤ n then pure (some v) else throw (.configuration (.batchSize n v))
  if n == 0 then return .give k s (.tuple [])
  else
    let _ ← Run.current
    let rel ← Run.relative a
    if !rel.isHashable then throw .illTyped
    let previous := (← get).minibatches.get? rel
    let indices ← checkIndices (← Run.fetch previous n (batch.getD (.int n)) rel) n
    modify fun w => { w with minibatches := w.minibatches.insert rel indices }
    let visits := if indices.isEmpty then (List.range n).map Int.ofNat else indices
    Run.note (.mapped rel visits.length n)
    nextVisit ⟨items, function, a, rel, visits, []⟩ s k

/-- Dimensions of an array. -/
def shapeOf (dims : List Value) : Except Failure (List Nat) :=
  dims.mapM fun d =>
    match d.scalar.int? with
    | some n => if n < 0 then .error .illTyped else .ok n.toNat
    | none => .error .illTyped

def numberOr (default : Float) : Option Value → Except Failure Float
  | none => .ok default
  | some v =>
    match v.number? with
    | some n => n.toFloat
    | none => .error .illTyped

/-- The key that a seed stands for, if there is a seed. -/
def seedKey : Option Value → Except Failure (Option Random.Key)
  | none | some .absent => .ok none
  | some v =>
    match v.int? with
    | some n => .ok (some (.ofSeed n.toNat))
    | none => .error .illTyped

/-- The first value of a parameter: the given one, or an array of the given dimensions, all
of one number or drawn around it. -/
def makeParam (start : Value) (mean sd : Float) (key : Option Random.Key) : Run Value := do
  match start with
  | .list dims | .tuple dims =>
    if sd == 0 then return .tensor (.fill (← Run.lift (shapeOf dims)) mean)
    else
      let key ←
        match key with
        | some key => pure key
        | none => Run.splitKey
      let shape ← Run.lift (shapeOf dims)
      let cells := (List.range (Tensor.size shape)).map fun i =>
        single mean + single (single sd * key.normal i)
      return .tensor (.ofFloats shape cells)
  | v => return v

/-- The parameter registered for the address, made at its first use. -/
def param (a : Address) (start : Value) (mean sd : Float) (key : Option Random.Key) :
    Run Value := do
  let rel ← Run.relative a
  if !rel.isHashable then throw .illTyped
  match (← get).params.get? rel with
  | some v => return v
  | none =>
    let v ← makeParam start mean sd key
    modify fun w => { w with params := w.params.insert rel v }
    Run.note (.registered rel)
    return v

def makeTensor (form : TensorForm) (v : Value) : Except Failure Value := do
  if !v.isSequence then throw .illTyped
  match form with
  | .vector =>
    let a ← Numbers.ofValue Numbers.toSingle v
    return .tensor ⟨[a.cells.length, 1], .reals a.cells⟩
  | .matrix =>
    if !(v.items?.getD []).all Value.isSequence then throw .illTyped
    let a ← Numbers.ofValue Numbers.toSingle v
    return .tensor ⟨a.shape, .reals a.cells⟩
  | .zeros => return .tensor (.fill (← shapeOf (v.items?.getD [])) 0)

/-- Names that an inference already uses and no option can have. -/
def reserved : List String := ["s", "k", "a", "program", "method"]

/-- Sets up an inference at an address. Without a key of its own it takes one from the
strategy in charge, if that one has any. -/
def prepare (a : Address) (function : Value) (method : Value) (key : Option Random.Key)
    (options : Options) (picks : Option (List Value)) : Run Inference := do
  match method with
  | .text word =>
    if !function.isCallable || options.any fun (name, _) => reserved.contains name then
      throw .illTyped
    match Method.ofWord? word with
    | none => throw (.configuration (.unknownMethod word (Method.words.map (·.1))))
    | some method =>
      let key ←
        match key, (← get).strategies with
        | some key, _ => pure (some key)
        | none, { key := some _, .. } :: _ => some <$> Run.splitKey
        | none, _ => pure none
      let strategy ← Run.lift (options.configure method)
      Run.note (.running method.title a)
      return ⟨⟨method.title, key, a, picks⟩, strategy, .entry function a⟩
  | _ => throw .illTyped

/-- A call of a function with its arguments. -/
def enter (cx : Context) (function : Value) (args : List Value) (a : Address) (s : Store)
    (k : Rest) : Run Control := do
  match function with
  | .memo table _ => callMemo table args a s k
  | .function name =>
    match cx.program.find? name with
    | none => throw .unknownName
    | some d =>
      if d.params.length != args.length then throw .illTyped
      else return .eval d.body (d.params.zip args) a s k
  | _ => throw .illTyped

/-- One move of a computation. -/
def advanceComp (cx : Context) (c : Comp) (vars : Vars) (a : Address) (s : Store)
    (k : Rest) : Run Move := do
  let sc : Scope := ⟨cx.program, cx.globals, vars, s, a⟩
  let give := fun (s : Store) (v : Value) => Move.go (.give k s v)
  let value := fun (e : Expr) => (Run.lift (e.eval sc) : Run Value)
  let site := fun (t : Option Expr) => (Run.lift (sc.site t) : Run Address)
  let part := fun (e : Option Expr) => (Run.lift (sc.optional e) : Run (Option Value))
  match c with
  | .ret e => return give s (← value e)
  | .bind name first rest => return .go (.eval first vars a s (.bind name rest vars a k))
  | .sequence [] => return give s .absent
  | .sequence [c] => return .go (.eval c vars a s k)
  | .sequence (c :: rest) => return .go (.eval c vars a s (.sequence rest vars a k))
  | .choose test yes no => return .go (.eval (if (← value test).isTrue then yes else no) vars a s k)
  | .sample t d =>
    let place ← site t
    let d ← Run.lift (d.eval sc)
    let _ ← Run.current
    return .rest (.sample s k place d)
  | .factor t e =>
    let place ← site t
    let v ← value e
    let _ ← Run.current
    return .rest (.factor s k place (← Run.lift v.toFloat))
  | .observe t d e =>
    let place ← site t
    let d ← Run.lift (d.eval sc)
    let v ← value e
    let _ ← Run.current
    return .rest (.factor s (.replace v k) place (← Run.lift (d.logDensity v)))
  | .set key e =>
    let key ← value key
    let v ← value e
    return give (← Run.lift (s.set key v)) .absent
  | .call t f args =>
    let f ← value f
    let place ← site t
    return .go (.call f (← Run.lift (Expr.evalAll sc args)) place s k)
  | .apply t f args =>
    let place ← site t
    let f ← value f
    return .go (.call f (← Run.lift (Expr.evalAll sc args)) place s k)
  | .bounce c => return .go (.eval c vars a s k)
  | .relative t => return give s (.address (← Run.relative (← site t)).tokens)
  | .map t data f batch =>
    let place ← site t
    let data ← value data
    let f ← value f
    return .go (← beginPass place data f (← part batch) s k)
  | .cache t f bound =>
    let _ ← site t
    let f ← value f
    return give s (← newMemo f ((← part bound).getD .absent))
  | .param t start mean sd seed =>
    let place ← site t
    let start ← value start
    let mean ← part mean
    let sd ← part sd
    let seed ← part seed
    let key ← Run.lift (seedKey seed)
    let mean ← Run.lift (numberOr 0 mean)
    let sd ← Run.lift (numberOr 0 sd)
    return give s (← param place start mean sd key)
  | .tensor form t e =>
    let _ ← site t
    return give s (← Run.lift (makeTensor form (← value e)))
  | .infer t f method options =>
    let place ← site t
    let f ← value f
    let method ← value method
    let options ← options.mapM fun (name, e) => do return (name, ← value e)
    let key ← Run.lift (seedKey (options.lookup "key"))
    let rest := options.filter (·.1 != "key")
    return .infer (← prepare place f method key rest none) s k
  | .emit e =>
    Run.emit (← value e)
    return give s .absent
  | .raise message => throw (.invalid (.raised message))
  | .stop e => return .rest (.stray (← value e))
  | .unknown _ => throw .unknownName

/-- One move of the machine. A value for nobody is a bare value. -/
def advance (cx : Context) : Control → Run Move
  | .eval c vars a s k => advanceComp cx c vars a s k
  | .call f args a s k => do return .go (← enter cx f args a s k)
  | .give k s v =>
    match k with
    | .halt => return .rest (.exit s v)
    | .deliver => return .rest (.stray v)
    | .entry f a => return .go (.call f [] a s .halt)
    | .bind name body vars a k => return .go (.eval body ((name, v) :: vars) a s k)
    | .sequence steps vars a k => return .go (.eval (.sequence steps) vars a s k)
    | .replace observed k => return .go (.give k s observed)
    | .remember table key k => do
      remember table key v
      return .go (.give k s v)
    | .visit pass k => do
      return .go (← nextVisit { pass with results := v :: pass.results } s k)

/-- Runs the machine up to the next step that needs a strategy. An inference inside the
program runs to its end on the way. This loop is also the trampoline for the bounces of the program:
`trampoline_burst` hands each of them back and goes on with it outside, which comes to the same. -/
def run (cx : Context) : Nat → Control → Run (Step Rest Dist Float)
  | 0, _ => throw .outOfFuel
  | fuel + 1, control => do
    match ← advance cx control with
    | .go next => run cx fuel next
    | .rest step => return step
    | .infer i s k => do
      let m ← Run.installed i.active
        (i.strategy.estimate (fun k s v => run cx fuel (.give k s v)) fuel i.entry s)
      run cx fuel (.give k s (.marginal m))

/-- Resumes what remains of a run. -/
def resume (cx : Context) (fuel : Nat) : Resume Run Rest Dist Float :=
  fun k s v => run cx fuel (.give k s v)

end Machine

end ProbCore
