import ProbCore.Strategy.Enumeration
import ProbCore.Strategy.Rejection
import ProbCore.Strategy.Chain
import ProbCore.Strategy.OpeningChain
import ProbCore.Strategy.Cascade

/-! The strategies by name, and their settings read from options. -/

namespace ProbCore

inductive Method where
  | enumerate | rejection | mcmc | smc | pmcmc | asyncpf
  deriving DecidableEq, Repr

namespace Method

def words : List (String × Method) :=
  [("asyncpf", asyncpf), ("enumerate", enumerate), ("mcmc", mcmc), ("pmcmc", pmcmc),
   ("rejection", rejection), ("smc", smc)]

def ofWord? (word : String) : Option Method := words.lookup word

/-- The name by which a strategy reports. -/
def title : Method → String
  | enumerate => "Enumerate"
  | rejection => "Rejection"
  | mcmc => "MCMC"
  | smc => "SMC"
  | pmcmc => "PMCMC"
  | asyncpf => "AsyncPF"

/-- The strategy of a name. -/
def ofTitle (name : String) : Except Failure Method :=
  match (words.map (·.2)).find? (·.title == name) with
  | some method => .ok method
  | none => .error .illTyped

end Method

/-- A strategy with its settings. -/
inductive Strategy (R : Type) where
  | enumerate (c : Enumeration.Config)
  | rejection (c : Rejection.Config R)
  | mcmc (c : Chain.Config)
  | smc (c : Filter.Config)
  | pmcmc (c : OpeningChain.Config)
  | asyncpf (c : Cascade.Config)

namespace Strategy

/-- Runs a program to a marginal under a strategy. -/
@[specialize]
def estimate {m : Type → Type} {κ D R : Type} [Monad m] [Host m D R] [Score R]
    (resume : Resume m κ D R) (fuel : Nat) (entry : κ) (s : Store) :
    Strategy R → m (Marginal Value R)
  | enumerate c => Enumeration.estimate resume fuel c entry s
  | rejection c => Rejection.estimate resume fuel c entry s
  | mcmc c => Chain.estimate resume fuel c entry s
  | smc c => Filter.estimate resume fuel c entry s
  | pmcmc c => OpeningChain.estimate resume fuel c entry s
  | asyncpf c => Cascade.estimate resume fuel c entry s

/-- Settings within the bounds that options must keep. -/
def Accepted {R : Type} : Strategy R → Prop
  | enumerate c => ∀ n, c.most = some n → 1 ≤ n
  | rejection c => 1 ≤ c.samples.val ∧ c.samples.val ≤ c.attempts.val
  | mcmc c => 1 ≤ c.samples ∧ 1 ≤ c.lag
  | smc c => 1 ≤ c.particles
  | pmcmc c => 1 ≤ c.particles ∧ 1 ≤ c.sweeps
  | asyncpf c => 1 ≤ c.particles.val ∧ 1 ≤ c.bufferSize

end Strategy

/-- Options by name. -/
abbrev Options := List (String × Value)

namespace Options

/-- An option of some kind, or its default. -/
def read {α : Type} (os : Options) (name : String) (default : α) (kind : Value → Option α) :
    Except Failure α :=
  match os.lookup name with
  | none => .ok default
  | some v =>
    match kind v with
    | some x => .ok x
    | none => .error .illTyped

def count (os : Options) (name : String) (default : Int) : Except Failure (Given Int) :=
  os.read name ⟨default, .int default⟩ fun v => v.int?.map (⟨·, v⟩)

/-- An integer that may also be left open. -/
def count? (os : Options) (name : String) : Except Failure (Option (Given Int)) :=
  os.read name none fun v =>
    match v with
    | .absent => some none
    | _ => v.int?.map fun n => some ⟨n, v⟩

def flag (os : Options) (name : String) (default : Bool) : Except Failure Bool :=
  os.read name default fun v =>
    match v with
    | .bool b => some b
    | _ => none

def word (os : Options) (name : String) (default : String) : Except Failure String :=
  os.read name default fun v =>
    match v with
    | .text s => some s
    | _ => none

def word? (os : Options) (name : String) : Except Failure (Option String) :=
  os.read name none fun v =>
    match v with
    | .absent => some none
    | .text s => some (some s)
    | _ => none

def number (os : Options) (name : String) (default : Float) :
    Except Failure (Given Float) :=
  os.read name ⟨default, .float default⟩ fun v =>
    match v.number? with
    | some (.int n) => some ⟨Decimal.nearestInt n, v⟩
    | some (.float x) => some ⟨x, v⟩
    | none => none

def allow (os : Options) (names : List String) : Except Failure Unit :=
  if os.all fun (name, _) => names.contains name then .ok () else .error .illTyped

def refuse {α : Type} (fault : ConfigurationFault) : Except Failure α :=
  .error (.configuration fault)

def atLeastOne (name : String) (given : Given Int) : Except Failure (Given Nat) :=
  if given.val < 1 then refuse (.belowOne name given.shown)
  else .ok ⟨given.val.toNat, given.shown⟩

def notNegative (name : String) (given : Given Int) : Except Failure Nat :=
  if given.val < 0 then refuse (.negative name given.shown) else .ok given.val.toNat

def attempts (given : Given Int) : Given Nat := ⟨given.val.toNat, given.shown⟩

def enumerate (os : Options) : Except Failure (Strategy Float) := do
  os.allow ["max_executions", "strategy"]
  let most ← os.count? "max_executions"
  let traversal ← os.word? "strategy"
  let most ← most.mapM (atLeastOne "max_executions")
  let word := traversal.getD (if most.isNone then "depth-first" else "likely-first")
  match Traversal.words.lookup word with
  | some t => return .enumerate ⟨t, most.map (·.val)⟩
  | none => refuse (.unknownTraversal (.text word) (Traversal.words.map (·.1)))

def rejection (os : Options) : Except Failure (Strategy Float) := do
  os.allow ["samples", "max_score", "incremental", "max_attempts"]
  let samples ← os.count "samples" 100
  let bound ← os.number "max_score" 0
  let incremental ← os.flag "incremental" false
  let most ← os.count "max_attempts" 1000000
  let wanted ← atLeastOne "samples" samples
  if most.val < samples.val then refuse (.fewerAttemptsThanSamples most.shown samples.shown)
  return .rejection ⟨wanted, bound, incremental, attempts most⟩

def mcmc (os : Options) : Except Failure (Strategy Float) := do
  os.allow ["samples", "burn", "lag", "max_init_attempts", "verbose"]
  let samples ← os.count "samples" 100
  let burn ← os.count "burn" 0
  let lag ← os.count "lag" 1
  let most ← os.count "max_init_attempts" 10000
  let verbose ← os.flag "verbose" false
  let samples ← atLeastOne "samples" samples
  let burn ← notNegative "burn" burn
  let lag ← atLeastOne "lag" lag
  return .mcmc ⟨samples.val, burn, lag.val, attempts most, verbose⟩

def smc (os : Options) : Except Failure (Strategy Float) := do
  os.allow ["particles", "rejuv_steps", "resampling"]
  let particles ← os.count "particles" 100
  let moves ← os.count "rejuv_steps" 0
  let resampling ← os.word "resampling" "multinomial"
  let particles ← atLeastOne "particles" particles
  let moves ← notNegative "rejuv_steps" moves
  match Resampling.words.lookup resampling with
  | some r => return .smc ⟨particles.val, moves, r⟩
  | none => refuse (.unknownResampling (.text resampling) (Resampling.words.map (·.1)))

def pmcmc (os : Options) : Except Failure (Strategy Float) := do
  os.allow ["particles", "sweeps", "max_init_attempts"]
  let particles ← os.count "particles" 100
  let sweeps ← os.count "sweeps" 100
  let most ← os.count "max_init_attempts" 10000
  let particles ← atLeastOne "particles" particles
  let sweeps ← atLeastOne "sweeps" sweeps
  return .pmcmc ⟨particles.val, sweeps.val, attempts most⟩

def asyncpf (os : Options) : Except Failure (Strategy Float) := do
  os.allow ["particles", "buffer_size", "max_roots"]
  let particles ← os.count "particles" 100
  let buffer ← os.count? "buffer_size"
  let roots ← os.count? "max_roots"
  let wanted ← atLeastOne "particles" particles
  let buffer ← atLeastOne "buffer_size" (buffer.getD particles)
  let roots := (roots.map (·.val.toNat)).getD (1000 * wanted.val)
  return .asyncpf ⟨wanted, buffer.val, roots⟩

/-- A strategy from its options. Kinds and names of options are checked before their
values. -/
def configure (os : Options) : Method → Except Failure (Strategy Float)
  | .enumerate => os.enumerate
  | .rejection => os.rejection
  | .mcmc => os.mcmc
  | .smc => os.smc
  | .pmcmc => os.pmcmc
  | .asyncpf => os.asyncpf

end Options

end ProbCore
