import ProbCore.Instance.Fields

/-! Instances that record executions: they extend traces, and propose new ones. -/

namespace ProbCore.Instance

open Kernel Act

variable {σ κ D R : Type} [Host (EStateM Failure σ) D R] [Score R]

/-- Notes a choice, unless it is impossible. -/
def keep (s : Store) (k : κ) (a : Address) (d : D) (value : Value) (lp : R) : Act σ κ D R Answer := do
  if Score.isImpossible lp then return .signal .rejected
  else
    updateTape (·.record s k a d value lp)
    return .goOn value

def kernelHooks : Hooks σ κ D R where
  sample s k a d := do
    if !a.isHashable then throw .illTyped
    else
      let f ← fields
      match ← host (carriedOver? f.old f.tape a d) with
      | some value =>
        updateTape fun tape => { tape with reused := a :: tape.reused }
        let lp ← host (Host.logDensity d value)
        keep s k a d value lp
      | none =>
        let value ← host (Host.draw d)
        let lp ← host (Host.logDensity d value)
        updateTape fun tape => { tape with fresh := tape.fresh + lp }
        keep s k a d value lp
  factor s k _ x := do
    if Score.isImpossible x || Score.isNaN x then return .signal .rejected
    else
      updateTape fun tape => { tape with score := tape.score + x, factors := tape.factors + 1 }
      let f ← fields
      match f.limit with
      | some n =>
        if n ≤ f.tape.factors then
          update fun f => { f with result := some (f.tape.snapshot s (.suspended k)) }
          return .signal .suspended
        else return .goOn .absent
      | none => return .goOn .absent
  exit s value := do
    update fun f => { f with result := some (f.tape.snapshot s (.done value)) }
    return .done

/-- Sets every field of a recording. -/
def begin (tape : Recording κ D R) (limit : Option Nat) (old : Option (Trace κ D R)) : Act σ κ D R Unit :=
  update fun f => { f with tape, limit, old, result := none }

/-- The last trace made, once the execution has ended; nothing if it was abandoned. -/
def run (resume : Resume (EStateM Failure σ) κ D R) (fuel : Nat) (step : Step κ D R) :
    Act σ κ D R (Option (Trace κ D R)) := do
  match ← trampoline resume kernelHooks fuel step with
  | .rejected => return none
  | .done | .suspended => return (← fields).result

def extend (resume : Resume (EStateM Failure σ) κ D R) (fuel : Nat) (t : Trace κ D R) (limit : Option Nat) :
    Act σ κ D R (Option (Trace κ D R)) :=
  match t.ending with
  | .done _ => return some t
  | .suspended k => do
    begin ⟨t.choices.reverse, t.score, t.prior, t.factors, [], Score.zero⟩ limit none
    run resume fuel (← host (resume k t.store .absent))

def simulate (resume : Resume (EStateM Failure σ) κ D R) (fuel : Nat) (entry : κ) (s : Store) (limit : Option Nat) :
    Act σ κ D R (Option (Trace κ D R)) :=
  extend resume fuel (.start entry s) limit

def findStart (resume : Resume (EStateM Failure σ) κ D R) (fuel : Nat) (entry : κ) (s : Store) (limit : Option Nat)
    (attempts : Given Nat) : Act σ κ D R (Trace κ D R) :=
  go attempts.val 1
where
  go : Nat → Nat → Act σ κ D R (Trace κ D R)
    | 0, _ => throw (.inference (.noStart attempts.shown))
    | remaining + 1, attempt => do
      match ← simulate resume fuel entry s limit with
      | some t =>
        if Score.less Score.impossible t.score then
          host (Host.note (.started attempt))
          return t
        else go remaining (attempt + 1)
      | none => go remaining (attempt + 1)

def regenerate (resume : Resume (EStateM Failure σ) κ D R) (fuel : Nat) (t : Trace κ D R) (limit : Option Nat) :
    Act σ κ D R (Option (Trace κ D R × R)) := do
  let sites := t.choices.length
  if sites == 0 then return none
  else
    let i ← host (Host.indexBelow sites)
    match t.choices[i]? with
    | none => return none
    | some site => do
      let value ← host (Host.draw site.dist)
      let lp ← host (Host.logDensity site.dist value)
      if Score.isImpossible lp then return none
      else
        begin ⟨(t.choices.take i).reverse, site.score, site.prior, site.factors, [], Score.zero⟩ limit (some t)
        updateTape fun tape => { tape with reused := (t.choices.take (i + 1)).map (·.address) }
        updateTape (·.record site.store site.k site.address site.dist value lp)
        match ← run resume fuel (← host (resume site.k site.store value)) with
        | none => return none
        | some new =>
          let f ← fields
          let forward := proposalScore sites lp f.tape.fresh
          let backward :=
            -(Score.logNat new.choices.length) + site.logDensity
              + (dropped (t.choices.drop (i + 1)) f.tape.reused).foldl (· + ·) Score.zero
          return some (new, new.score - t.score + backward - forward)

def move (resume : Resume (EStateM Failure σ) κ D R) (fuel : Nat) (t : Trace κ D R) (limit : Option Nat) :
    Act σ κ D R (Trace κ D R × Bool) := do
  match ← regenerate resume fuel t limit with
  | none => return (t, false)
  | some (new, logAlpha) =>
    if Score.less (← host Host.logUniform) logAlpha then return (new, true) else return (t, false)

def exitValue (t : Trace κ D R) : Act σ κ D R Value := host (Kernel.exitValue t)

end ProbCore.Instance
