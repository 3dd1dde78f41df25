import ProbCore.Address
import ProbCore.Decimal.Places

/-! What strategies and tables report while they work. -/

namespace ProbCore

inductive Notice where
  | running (strategy : String) (address : Address)
  | enumerated (executions left : Nat)
  | rejected (samples attempts : Nat)
  | started (attempts : Nat)
  | acceptance (rate : Float) (steps : Nat)
  | filterRound (round : Nat) (logMass : Float)
  | startLost (attempt : Nat)
  | sweep (number : Nat) (logMass : Float)
  | cascade (finished roots : Nat)
  | registered (address : Address)
  | mapped (address : Address) (visits size : Nat)
  | evicted (key : String)
  | alreadyKnown (key : String)
  | diverged (key old new : String)
  | grown (function : String) (entries : Nat)

/-- Severity, as a number and a name. -/
inductive Level where
  | debug | info | warning

def Level.number : Level → Nat
  | debug => 10
  | info => 20
  | warning => 30

def Level.name : Level → String
  | debug => "DEBUG"
  | info => "INFO"
  | warning => "WARNING"

namespace Notice

def level : Notice → Level
  | acceptance .. | grown .. => .info
  | diverged .. => .warning
  | _ => .debug

/-- The part of the package that reports. -/
def topic : Notice → String
  | running .. => "inference"
  | enumerated .. => "enumeration"
  | rejected .. => "rejection"
  | started .. | acceptance .. => "mcmc"
  | filterRound .. => "smc"
  | startLost .. | sweep .. => "pmcmc"
  | cascade .. => "asyncpf"
  | registered .. => "params"
  | mapped .. => "batching"
  | evicted .. | alreadyKnown .. | diverged .. | grown .. => "memoization"

def text : Notice → String
  | running strategy address => "Running " ++ strategy ++ " at " ++ address.text
  | enumerated executions left =>
    "Enumerate finished " ++ toString executions ++ " executions, " ++ toString left
      ++ " branches left"
  | rejected samples attempts =>
    "Rejection accepted " ++ toString samples ++ " samples in " ++ toString attempts ++ " attempts"
  | started attempts => "Initialized trace after " ++ toString attempts ++ " attempts"
  | acceptance rate steps =>
    "MCMC acceptance rate: " ++ Decimal.fixed 3 rate ++ " over " ++ toString steps ++ " steps"
  | filterRound round logMass =>
    "SMC round " ++ toString round ++ ": log Z = " ++ Decimal.fixed 4 logMass
  | startLost attempt =>
    "PMCMC initialization attempt " ++ toString attempt ++ " lost every particle"
  | sweep number logMass =>
    "PMCMC sweep " ++ toString number ++ ": log Z = " ++ Decimal.fixed 4 logMass
  | cascade finished roots =>
    "AsyncPF finished " ++ toString finished ++ " particles from " ++ toString roots ++ " roots"
  | registered address => "Registered parameter at " ++ address.text
  | mapped address visits size =>
    "map_data at " ++ address.text ++ " visits " ++ toString visits ++ " of " ++ toString size
      ++ " elements"
  | evicted key => "Evicted " ++ key ++ " from cache"
  | alreadyKnown key => "Already in cache: " ++ key
  | diverged key old new =>
    "Cache entry for " ++ key ++ " differs between executions: " ++ old ++ " and " ++ new
  | grown function entries =>
    "Cache of " ++ function ++ " holds " ++ toString entries
      ++ " entries; pass max_size to cache() to bound it."

/-- One line: severity, reporter and text. -/
def line (n : Notice) : String := n.level.name ++ " cpsppl." ++ n.topic ++ ": " ++ n.text

end Notice

end ProbCore
