import ProbCore.Program.Machine

/-! Running programs and inferences from outside. -/

namespace ProbCore

/-- A loaded program, with the tables it names and the world it runs in. -/
structure Session where
  context : Machine.Context
  world : World

namespace Session

def start : Session := ⟨⟨⟨[]⟩, []⟩, .start⟩

/-- Bounds every run far beyond what can be waited for. -/
def fuel : Nat := Decimal.pow2 62

/-- A function of the program by name. -/
def function (cx : Machine.Context) (name : String) : Except Failure Value :=
  match cx.program.find? name with
  | some _ => .ok (.function name)
  | none => .error .unknownName

/-- Calls a function without a strategy and gives what comes to rest. -/
def call (cx : Machine.Context) (f : Value) (args : List Value) (a : Address) (s : Store) :
    Run Value := do
  match ← Machine.run cx fuel (.call f args a s .deliver) with
  | .stray v => return v
  | _ => throw (.inference .noStrategy)

/-- The table of remembered results with a number. -/
def memo (table : Nat) : Run Memo := do
  match (← get).memos[table]? with
  | some m => return m
  | none => throw .unknownName

private def setCache (table : Nat) (cache : Cache Value) : Run Unit := do
  let m ← memo table
  modify fun w => { w with memos := w.memos.setIfInBounds table { m with cache } }

/-- Forgets all results. -/
def clearMemo (table : Nat) : Run Unit := do setCache table (← memo table).cache.clear

/-- Writes a result directly. -/
def fillMemo (table : Nat) (key value : Value) : Run Unit := do
  let key ← Run.lift key.cacheKey
  let (cache, dropped) ← Run.lift ((← memo table).cache.put key value)
  if let some dropped := dropped then Run.note (.evicted dropped)
  setCache table cache

def settings : List String := ["store", "address", "key"]

/-- Runs a prepared inference to its marginal. -/
def conclude (cx : Machine.Context) (i : Inference) (s : Store) : Run (Marginal Value Float) :=
  Run.installed i.active (i.strategy.estimate (Machine.resume cx fuel) fuel i.entry s)

/-- Infers the marginal of a program's value by a named method. -/
def infer (cx : Machine.Context) (f : Value) (method : Value) (key : Option Random.Key)
    (options : Options) (a : Address) (s : Store) : Run (Marginal Value Float) := do
  if options.any fun (name, _) => settings.contains name then throw .illTyped
  conclude cx (← Machine.prepare a f method key options none) s

/-- An exhaustive search whose passes over data visit the given picks. -/
def prepareSubsample (f : Value) (options : Options) (picks : List Value) (a : Address) :
    Run Inference := do
  let strategy ← Run.lift (options.configure .enumerate)
  return ⟨⟨Method.enumerate.title, none, a, some picks⟩, strategy, .entry f a⟩

end Session

end ProbCore
