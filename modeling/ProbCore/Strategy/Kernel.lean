import ProbCore.Strategy.Step
import ProbCore.Strategy.Given
import ProbCore.Strategy.Trace

/-! Single-site moves over traces. A proposal redraws one choice and takes the execution up
again from there. Later choices keep their old values where the same address comes again and
the value could have been drawn, and are drawn fresh otherwise. -/

namespace ProbCore.Kernel

/-- An execution being recorded: choices, latest first, the running totals, the addresses
whose old values are spent, and the log density of the fresh draws. -/
structure Recording (κ D R : Type) where
  choices : List (Choice κ D R)
  score : R
  prior : R
  factors : Nat
  reused : List Address
  fresh : R

variable {m : Type → Type} {κ D R : Type} [Monad m] [Host m D R] [Score R]

/-- One more choice. -/
def Recording.record (tape : Recording κ D R) (s : Store) (k : κ) (a : Address) (d : D)
    (value : Value) (lp : R) : Recording κ D R :=
  { tape with
    choices := ⟨a, d, value, lp, k, s, tape.score, tape.prior, tape.factors⟩ :: tape.choices
    score := tape.score + lp
    prior := tape.prior + lp }

def Recording.snapshot (tape : Recording κ D R) (s : Store) (ending : Ending κ) : Trace κ D R :=
  ⟨tape.choices.reverse, tape.score, tape.prior, tape.factors, s, ending⟩

/-- A finished recording: the trace, with the addresses reused and the fresh density. -/
structure Recorded (κ D R : Type) where
  trace : Trace κ D R
  reused : List Address
  fresh : R

def Recording.finish (tape : Recording κ D R) (s : Store) (ending : Ending κ) : Recorded κ D R :=
  ⟨tape.snapshot s ending, tape.reused, tape.fresh⟩

/-- The old value for an address, unless there is none, it is spent, or it could not have
been drawn here. -/
def carriedOver? (old : Option (Trace κ D R)) (tape : Recording κ D R) (a : Address) (d : D) :
    m (Option Value) :=
  match old.bind (·.choiceAt? a) with
  | none => pure none
  | some c =>
    if tape.reused.contains a then pure none
    else do return if ← Host.accepts d c.value then some c.value else none

/-- Records choices and factors up to a limit of factors. An impossible choice or factor
abandons the execution, as does a factor that is no number. -/
@[specialize]
def handler (limit : Option Nat) (old : Option (Trace κ D R)) :
    Handler m κ D R (Recording κ D R) (Option (Recorded κ D R)) where
  sample tape s k a d := do
    if !a.isHashable then Host.fail .illTyped
    else
      match ← carriedOver? old tape a d with
      | some value => do
        let lp ← Host.logDensity d value
        if Score.isImpossible lp then return .finish none
        else
          return .deliver ({ tape with reused := a :: tape.reused }.record s k a d value lp) value
      | none => do
        let value ← Host.draw d
        let lp ← Host.logDensity d value
        if Score.isImpossible lp then return .finish none
        else return .deliver ({ tape with fresh := tape.fresh + lp }.record s k a d value lp) value
  factor tape s k _ x := do
    if Score.isImpossible x || Score.isNaN x then return .finish none
    else
      let tape := { tape with score := tape.score + x, factors := tape.factors + 1 }
      match limit with
      | some n =>
        if n ≤ tape.factors then return .finish (some (tape.finish s (.suspended k)))
        else return .deliver tape .absent
      | none => return .deliver tape .absent
  exit tape s value := pure (some (tape.finish s (.done value)))

/-- Resumes a suspended trace until it has absorbed `limit` factors or is complete; nothing
if the execution is abandoned. -/
@[specialize]
def extend (resume : Resume m κ D R) (fuel : Nat) (t : Trace κ D R) (limit : Option Nat) :
    m (Option (Trace κ D R)) :=
  match t.ending with
  | .done _ => pure (some t)
  | .suspended k => do
    let tape : Recording κ D R := ⟨t.choices.reverse, t.score, t.prior, t.factors, [], Score.zero⟩
    let result ← drive resume (handler limit none) fuel tape (← resume k t.store .absent)
    return result.map (·.trace)

@[specialize]
def simulate (resume : Resume m κ D R) (fuel : Nat) (entry : κ) (s : Store)
    (limit : Option Nat) : m (Option (Trace κ D R)) :=
  extend resume fuel (.start entry s) limit

/-- Simulates until an execution has mass, for a number of attempts. -/
@[specialize]
def findStart (resume : Resume m κ D R) (fuel : Nat) (entry : κ) (s : Store)
    (limit : Option Nat) (attempts : Given Nat) : m (Trace κ D R) :=
  go attempts.val 1
where
  @[specialize] go : Nat → Nat → m (Trace κ D R)
    | 0, _ => Host.fail (.inference (.noStart attempts.shown))
    | remaining + 1, attempt => do
      match ← simulate resume fuel entry s limit with
      | some t =>
        if Score.less Score.impossible t.score then
          Host.note (.started attempt)
          return t
        else go remaining (attempt + 1)
      | none => go remaining (attempt + 1)

/-- The part of a move's density that a proposal gives: the choice of site among `sites`, its
redrawn value, and the values drawn fresh. -/
def proposalScore (sites : Nat) (redrawn fresh : R) : R := -(Score.logNat sites) + redrawn + fresh

/-- The log densities of the later choices whose values were not carried over. -/
def dropped (later : List (Choice κ D R)) (reused : List Address) : List R :=
  (later.filter fun c => !reused.contains c.address).map (·.logDensity)

/-- A trace with one uniformly chosen choice redrawn, and the log acceptance ratio of the
move; nothing if the proposal has no mass. -/
@[specialize]
def regenerate (resume : Resume m κ D R) (fuel : Nat) (t : Trace κ D R) (limit : Option Nat) :
    m (Option (Trace κ D R × R)) := do
  let sites := t.choices.length
  if sites == 0 then return none
  else
    let i ← Host.indexBelow sites
    match t.choices[i]? with
    | none => return none
    | some site => do
      let value ← Host.draw site.dist
      let lp ← Host.logDensity site.dist value
      if Score.isImpossible lp then return none
      else
        let before : Recording κ D R :=
          ⟨(t.choices.take i).reverse, site.score, site.prior, site.factors,
            (t.choices.take (i + 1)).map (·.address), Score.zero⟩
        let tape := before.record site.store site.k site.address site.dist value lp
        let step ← resume site.k site.store value
        match ← drive resume (handler limit (some t)) fuel tape step with
        | none => return none
        | some new =>
          let forward := proposalScore sites lp new.fresh
          let backward :=
            -(Score.logNat new.trace.choices.length) + site.logDensity
              + (dropped (t.choices.drop (i + 1)) new.reused).foldl (· + ·) Score.zero
          return some (new.trace, new.trace.score - t.score + backward - forward)

/-- One move: the next trace, and whether the proposal was accepted. -/
@[specialize]
def move (resume : Resume m κ D R) (fuel : Nat) (t : Trace κ D R) (limit : Option Nat) :
    m (Trace κ D R × Bool) := do
  match ← regenerate resume fuel t limit with
  | none => return (t, false)
  | some (new, logAlpha) =>
    if Score.less (← Host.logUniform) logAlpha then return (new, true) else return (t, false)

def exitValue (t : Trace κ D R) : m Value :=
  match t.ending with
  | .done v => pure v
  | .suspended _ => Host.fail (.inference .suspended)

end ProbCore.Kernel
