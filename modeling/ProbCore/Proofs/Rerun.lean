import ProbCore.Proofs.KernelRuns

/-! Running a program again with the values of its choices given. Whatever a run absorbs, the
same values make it absorb again, with the same totals bit for bit: nothing is assumed of the
addition of scores. -/

namespace ProbCore

open Kernel (Recording)

/-- A run with given values: the tape, the values to come, and the factors absorbed, latest
first. -/
structure Forced (κ D R : Type) where
  tape : Recording κ D R
  values : List Value
  factors : List R

namespace Forced

variable {m : Type → Type} {κ D R : Type} [Monad m] [Host m D R] [Score R]

def outcome (st : Forced κ D R) (s : Store) (e : Ending κ) : Option (Trace κ D R × List R) :=
  if st.values.isEmpty then some (st.tape.snapshot s e, st.factors.reverse) else none

/-- Choices take the given values. The run ends at the factor that makes their number `stop`. -/
def handler (stop : Option Nat) :
    Handler m κ D R (Forced κ D R) (Option (Trace κ D R × List R)) where
  sample st s k a d :=
    match st.values with
    | [] => pure (.finish none)
    | v :: rest => do
      let lp ← Host.logDensity d v
      return .deliver { st with tape := st.tape.record s k a d v lp, values := rest } v
  factor st s k _ x :=
    let st := { st with tape := st.tape.absorb x, factors := x :: st.factors }
    if stop = some st.tape.factors then pure (.finish (st.outcome s (.suspended k)))
    else pure (.deliver st .absent)
  exit st s v := pure (st.outcome s (.done v))

theorem outcome_eq {κ D R : Type} {st : Forced κ D R} (spent : st.values = []) (s : Store)
    (e : Ending κ) :
    st.outcome s e = some (st.tape.totals.trace st.tape.choices.reverse s e, st.factors.reverse) := by
  rw [outcome, spent]
  rfl

def start (values : List Value) : Forced κ D R :=
  ⟨⟨[], Score.zero, Score.zero, 0, [], Score.zero⟩, values, []⟩

end Forced

variable {m : Type → Type} {κ D R : Type} [Monad m] [Host m D R] [Score R]

/-- Runs a program from the start with these values for its choices, up to its end or to the
factor that makes their number `stop`. Gives the trace and the factors that it absorbed, if the
run takes all of the values. -/
def rerun (resume : Resume m κ D R) (fuel : Nat) (entry : κ) (s : Store) (values : List Value)
    (stop : Option Nat) : m (Option (Trace κ D R × List R)) :=
  if stop = some 0 then pure (some (.start entry s, []))
  else do
    let step ← resume entry s .absent
    drive resume (Forced.handler stop) fuel (Forced.start values) step

def Ending.stop (n : Nat) : Ending κ → Option Nat
  | .done _ => none
  | .suspended _ => some n

section

variable {σ κ D R : Type} [Host (EStateM Failure σ) D R] [LawfulHost σ D R] [Score R]
  {resume : Resume (EStateM Failure σ) κ D R} {P : PlainProgram κ D R} {inside : κ → Prop}

omit [Host (EStateM Failure σ) D R] [LawfulHost σ D R] in
/-- A run that goes on after a factor is not to stop there. -/
private theorem stops_later {laws : Densities D R} {T T' : Totals R} {step : Step κ D R}
    {es : List (Event κ D R)} {s : Store} {e : Ending κ} (runs : Runs laws P T step es T' s e) :
    e.stop T'.factors ≠ some T.factors := by
  cases e with
  | done v => exact nofun
  | suspended k =>
    have more := runs.suspended_after
    intro same
    have equal := Option.some.inj same
    omega

/-- A run with the values of its choices given is that run. -/
theorem drive_forced (performs : Performs resume P inside) {T T' : Totals R} {step : Step κ D R}
    {es : List (Event κ D R)} {s : Store} {e : Ending κ}
    (runs : Runs (LawfulHost.densities σ) P T step es T' s e)
    (held : ∀ k, step.rest? = some k → inside k) {st : Forced κ D R} (begins : st.tape.totals = T)
    (given : st.values = (Event.choices es).map (·.value)) :
    ∃ n, ∀ fuel ≥ n,
      Returns (drive resume (Forced.handler (e.stop T'.factors)) fuel st step)
        (some (T'.trace (st.tape.choices.reverse ++ Event.choices es) s e,
          st.factors.reverse ++ Event.factors es)) := by
  induction runs generalizing st with
  | @exit T s v =>
    subst begins
    refine enough_fuel fun fuel => ?_
    apply Returns.drive_exit
    simp only [Forced.handler, Forced.outcome_eq given, Event.choices_nil, Event.factors_nil,
      List.append_nil]
    exact Returns.pure _
  | @suspend T s k a x =>
    subst begins
    have now : (Ending.suspended k).stop (st.tape.totals.absorb x).factors =
        some (st.tape.absorb x).factors := rfl
    have spent : (⟨st.tape.absorb x, st.values, x :: st.factors⟩ : Forced κ D R).values = [] := given
    refine enough_fuel fun fuel => ?_
    apply Returns.drive_factor_finish
    simp only [Forced.handler]
    rw [if_pos now, Forced.outcome_eq spent, Event.choices_factor, Event.choices_nil,
      List.append_nil, List.reverse_cons]
    exact Returns.pure _
  | @factor T T' s s' k a x step es e goes runs ih =>
    subst begins
    have totals : (st.tape.absorb x).totals = st.tape.totals.absorb x := rfl
    have later : e.stop T'.factors ≠ some (st.tape.absorb x).factors := stops_later runs
    have reached := @ih (fun _ => performs.closed (held k rfl) goes)
      ⟨st.tape.absorb x, st.values, x :: st.factors⟩ totals given
    refine more_fuel reached fun fuel rest => ?_
    simp only [List.reverse_cons, List.append_assoc, List.singleton_append] at rest
    refine Returns.drive_factor ?_ (performs.returns (held k rfl) goes) rest
    simp only [Forced.handler]
    rw [if_neg later]
    exact Returns.pure _
  | @choice T T' s s' k a d v lp step es e weighs goes runs ih =>
    subst begins
    have totals : (st.tape.record s k a d v lp).totals = st.tape.totals.choose lp := rfl
    have reached := @ih (fun _ => performs.closed (held k rfl) goes)
      ⟨st.tape.record s k a d v lp, (Event.choices es).map (·.value), st.factors⟩ totals rfl
    refine more_fuel reached fun fuel rest => ?_
    rw [Kernel.record_reverse] at rest
    refine Returns.drive_sample ?_ (performs.returns (held k rfl) goes) rest
    simp only [Forced.handler, given, Event.choices_choice, List.map_cons]
    rw [LawfulHost.logDensity_eq]
    exact (Returns.lift weighs).bind (Returns.pure _)

end

end ProbCore
