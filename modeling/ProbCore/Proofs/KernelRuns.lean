import ProbCore.Proofs.Course
import ProbCore.Proofs.ProgramRun
import ProbCore.Proofs.Scripted

/-! A recording of the kernel is a run of the program together with the decisions, choice by
choice, to keep an old value or to draw a new one. Either determines the other, so that runs
may be cut and joined where recordings cannot. -/

namespace ProbCore.Kernel

variable {κ D R : Type} [Score R]

/-- What an execution may absorb without being abandoned. -/
def fine : Event κ D R → Bool
  | .choice c => c.address.isHashable && !Score.isImpossible c.logDensity
  | .factor x => tolerable x

/-- Where the values of choices come from: they are kept while their addresses are not spent,
or drawn, and then their densities add up. -/
inductive Decides (laws : Densities D R) (drawable : D → Value → Prop) (old : Option (Trace κ D R)) :
    List Address → R → List (Choice κ D R) → List Value → List Address → R → Prop where
  | nil {reused fresh} : Decides laws drawable old reused fresh [] [] reused fresh
  | kept {reused fresh c cs draws reused' fresh'}
      (carries : carried laws old reused c.address c.dist = .ok (some c.value))
      (decides : Decides laws drawable old (c.address :: reused) fresh cs draws reused' fresh') :
      Decides laws drawable old reused fresh (c :: cs) draws reused' fresh'
  | drawn {reused fresh c cs draws reused' fresh'}
      (carries : carried laws old reused c.address c.dist = .ok none) (drawn : drawable c.dist c.value)
      (decides : Decides laws drawable old reused (fresh + c.logDensity) cs draws reused' fresh') :
      Decides laws drawable old reused fresh (c :: cs) (c.value :: draws) reused' fresh'

/-- An execution that has absorbed so many factors has not been stopped by the limit. -/
def Running (limit : Option Nat) (n : Nat) : Prop := n = 0 ∨ stops limit n = false

/-- How executions end under a limit: complete before they reach it, or suspended at the factor
that reaches it. -/
def Ends (limit : Option Nat) (n : Nat) : Ending κ → Prop
  | .done _ => Running limit n
  | .suspended _ => ∃ m, n = m + 1 ∧ Running limit m ∧ stops limit n = true

def Recording.totals (tape : Recording κ D R) : Totals R := ⟨tape.score, tape.prior, tape.factors⟩

variable {laws : Densities D R} {P : PlainProgram κ D R} {drawable : D → Value → Prop}
  {limit : Option Nat} {old : Option (Trace κ D R)}

theorem fine_choice {c : Choice κ D R} : fine (.choice c) = true ↔
    c.address.isHashable = true ∧ Score.isImpossible c.logDensity = false := by
  simp [fine]

omit [Score R] in
theorem stops_mono {n m : Nat} (lower : n ≤ m) (stopped : stops limit n = true) :
    stops limit m = true := by
  cases limit with
  | none => cases stopped
  | some l =>
    simp only [stops, Option.any_some, decide_eq_true_eq] at stopped ⊢
    omega

theorem not_stopped {T T' : Totals R} {step : Step κ D R} {es : List (Event κ D R)} {s : Store}
    {e : Ending κ} (runs : Runs laws P T step es T' s e) (ends : Ends limit T'.factors e)
    (positive : 0 < T.factors) : stops limit T.factors = false := by
  rw [Bool.eq_false_iff]
  intro stopped
  cases e with
  | done v =>
    rcases ends with none_absorbed | running
    · have := runs.factors_eq
      omega
    · have more := runs.factors_eq
      have later := stops_mono (by omega : T.factors ≤ T'.factors) stopped
      rw [running] at later
      cases later
  | suspended k =>
    obtain ⟨m, last, running, _⟩ := ends
    have before := runs.suspended_after
    rcases running with zero | running
    · omega
    · rw [stops_mono (by omega) stopped] at running
      cases running

theorem record_reverse (tape : Recording κ D R) (s : Store) (k : κ) (a : Address) (d : D)
    (v : Value) (lp : R) (cs : List (Choice κ D R)) :
    (tape.record s k a d v lp).choices.reverse ++ cs =
      tape.choices.reverse ++ ⟨a, d, v, lp, k, s, tape.score, tape.prior, tape.factors⟩ :: cs := by
  simp [Recording.record]

theorem Records.runs {tape : Recording κ D R} {step : Step κ D R} {draws : List Value}
    {out : Recorded κ D R} (records : Records laws P drawable limit old tape step draws out) :
    ∃ es T s e, Runs laws P tape.totals step es T s e ∧ (∀ v ∈ es, fine v = true) ∧
      Decides laws drawable old tape.reused tape.fresh (Event.choices es) draws out.reused out.fresh ∧
      out.trace = Totals.trace T (tape.choices.reverse ++ Event.choices es) s e ∧
      (Running limit tape.factors → Ends limit T.factors e) := by
  induction records with
  | exit => exact ⟨[], _, _, _, .exit, nofun, .nil, by simp; rfl, id⟩
  | @suspend tape s k a x tolerated stop =>
    refine ⟨[.factor x], _, _, _, .suspend, by simpa [fine] using tolerated, .nil, by simp; rfl, ?_⟩
    exact fun running => ⟨_, rfl, running, stop⟩
  | @factor tape s k a x step draws out tolerated running goes _ ih =>
    obtain ⟨es, T, s', e, runs, fines, decides, same, ends⟩ := ih
    refine ⟨.factor x :: es, T, s', e, .factor goes runs, ?_, decides, same, ?_⟩
    · exact List.forall_mem_cons.mpr ⟨tolerated, fines⟩
    · exact fun _ => ends (.inr running)
  | @kept tape s k a d v lp step draws out hashable carries weighs possible goes _ ih =>
    obtain ⟨es, T, s', e, runs, fines, decides, same, ends⟩ := ih
    refine ⟨_, T, s', e, .choice weighs goes runs, ?_, .kept carries decides, ?_, ends⟩
    · exact List.forall_mem_cons.mpr ⟨fine_choice.mpr ⟨hashable, possible⟩, fines⟩
    · exact same.trans (congrArg (Totals.trace T · s' e) (record_reverse _ s k a d v lp _))
  | @drawn tape s k a d v lp step draws out hashable carries fits weighs possible goes _ ih =>
    obtain ⟨es, T, s', e, runs, fines, decides, same, ends⟩ := ih
    refine ⟨_, T, s', e, .choice weighs goes runs, ?_, .drawn carries fits decides, ?_, ends⟩
    · exact List.forall_mem_cons.mpr ⟨fine_choice.mpr ⟨hashable, possible⟩, fines⟩
    · exact same.trans (congrArg (Totals.trace T · s' e) (record_reverse _ s k a d v lp _))

/-- A run with its decisions is what the kernel records. -/
theorem Records.of_runs {T T' : Totals R} {step : Step κ D R} {es : List (Event κ D R)} {s : Store}
    {e : Ending κ} (runs : Runs laws P T step es T' s e) (fines : ∀ v ∈ es, fine v = true)
    {tape : Recording κ D R} (begins : tape.totals = T) {draws : List Value} {reused : List Address}
    {fresh : R} (decides : Decides laws drawable old tape.reused tape.fresh (Event.choices es) draws
      reused fresh) (ends : Ends limit T'.factors e) :
    Records laws P drawable limit old tape step draws
      ⟨Totals.trace T' (tape.choices.reverse ++ Event.choices es) s e, reused, fresh⟩ := by
  induction runs generalizing tape draws with
  | exit =>
    subst begins
    cases decides
    rw [Event.choices_nil, List.append_nil]
    exact .exit
  | suspend =>
    subst begins
    cases decides
    rw [Event.choices_factor, Event.choices_nil, List.append_nil]
    obtain ⟨m, last, _, stop⟩ := ends
    exact .suspend (fines _ List.mem_cons_self) stop
  | factor goes runs ih =>
    subst begins
    obtain ⟨tolerated, fines⟩ := List.forall_mem_cons.mp fines
    have running := not_stopped runs ends (Nat.succ_pos _)
    exact .factor tolerated running goes (ih fines rfl decides ends)
  | @choice T T' s s' k a d v lp step es e weighs goes runs ih =>
    subst begins
    obtain ⟨ok, fines⟩ := List.forall_mem_cons.mp fines
    obtain ⟨hashable, possible⟩ := fine_choice.mp ok
    cases decides with
    | kept carries decides =>
      have totals : ((tape.keep a).record s k a d v lp).totals = tape.totals.choose lp := rfl
      have rest := ih fines totals decides ends
      rw [record_reverse] at rest
      exact .kept hashable carries weighs possible goes rest
    | drawn carries fits decides =>
      have totals : ((tape.draw lp).record s k a d v lp).totals = tape.totals.choose lp := rfl
      have rest := ih fines totals decides ends
      rw [record_reverse] at rest
      exact .drawn hashable carries fits weighs possible goes rest

def Drawable (laws : Densities D R) (d : D) (v : Value) : Prop := laws.accepts d v = .ok true

theorem carried_drawable {reused : List Address} {a : Address} {d : D} {v : Value}
    (carries : carried laws old reused a d = .ok (some v)) : Drawable laws d v := by
  unfold carried at carries
  split at carries
  next => cases carries
  next c _ =>
    split at carries
    next => cases carries
    next =>
      cases answer : laws.accepts d c.value with
      | error e =>
        rw [answer] at carries
        cases carries
      | ok accepted =>
        cases accepted with
        | false =>
          rw [answer] at carries
          cases carries
        | true =>
          rw [answer] at carries
          obtain rfl : c.value = v := Option.some.inj (Except.ok.inj carries)
          exact answer

theorem Decides.all_drawable {reused reused' : List Address} {fresh fresh' : R}
    {cs : List (Choice κ D R)} {draws : List Value}
    (decides : Decides laws (Drawable laws) old reused fresh cs draws reused' fresh') :
    ∀ c ∈ cs, Drawable laws c.dist c.value := by
  induction decides with
  | nil => exact nofun
  | kept carries _ ih => exact List.forall_mem_cons.mpr ⟨carried_drawable carries, ih⟩
  | drawn _ drawable _ ih => exact List.forall_mem_cons.mpr ⟨drawable, ih⟩

/-- The script of values drawn, before what else is drawn later. -/
def script (laws : Densities D R) (draws : List Value) (rest : List (Draw R)) : Script laws :=
  ⟨draws.map .value ++ rest⟩

theorem scripted (laws : Densities D R) (P : PlainProgram κ D R) :
    Trailing (P.resume : Resume (EStateM Failure (Script laws)) κ D R) (fun _ => True)
      (Drawable laws) fun w draws w' => w = script laws draws w'.draws where
  rest _ := rfl
  resume _ _ resumed trailed := by
    obtain ⟨_, rfl⟩ := lift_eq_ok.mp resumed
    exact trailed
  draw {d v w w'} _ drew := by
    obtain ⟨drawn, accepted⟩ := Script.draw_eq_ok.mp drew
    refine ⟨accepted, fun draws w'' trailed => ?_⟩
    obtain ⟨all⟩ := w
    have rest := congrArg Script.draws trailed
    dsimp only at drawn
    rw [drawn, rest]
    rfl

/-- The kernel records every recording of the program, given the draws and fuel enough. -/
theorem Records.drive_eq {tape : Recording κ D R} {step : Step κ D R} {draws : List Value}
    {out : Recorded κ D R} (records : Records laws P (Drawable laws) limit old tape step draws out) :
    ∃ n, ∀ fuel ≥ n, ∀ rest,
      (drive P.resume (handler limit old) fuel tape step : EStateM Failure (Script laws) _)
        (script laws draws rest) = .ok (some out) ⟨rest⟩ := by
  induction records with
  | exit => exact enough_fuel fun _ _ => rfl
  | @suspend tape s k a x tolerated stop =>
    refine enough_fuel fun fuel rest => ?_
    refine bind_eq_ok.mpr ⟨_, _, congrFun (handler_factor limit old tape s k a x) _, ?_⟩
    rw [onFactor_stopped s k tolerated stop]
    rfl
  | @factor tape s k a x step draws out tolerated running goes _ ih =>
    refine more_fuel ih fun fuel driven rest => ?_
    refine bind_eq_ok.mpr ⟨_, _, congrFun (handler_factor limit old tape s k a x) _, ?_⟩
    rw [onFactor_absorbed s k tolerated running]
    exact bind_eq_ok.mpr ⟨step, _, lift_eq_ok.mpr ⟨goes, rfl⟩, driven rest⟩
  | @kept tape s k a d v lp step draws out hashable carries weighs possible goes _ ih =>
    refine more_fuel ih fun fuel driven rest => ?_
    refine bind_eq_ok.mpr ⟨_, _, samples_kept hashable carries weighs, ?_⟩
    rw [possible]
    exact bind_eq_ok.mpr ⟨step, _, lift_eq_ok.mpr ⟨goes, rfl⟩, driven rest⟩
  | @drawn tape s k a d v lp step draws out hashable carries fits weighs possible goes _ ih =>
    refine more_fuel ih fun fuel driven rest => ?_
    refine bind_eq_ok.mpr ⟨_, _, samples_drawn hashable carries (Script.draw_eq_ok.mpr ⟨rfl, fits⟩) weighs, ?_⟩
    rw [possible]
    exact bind_eq_ok.mpr ⟨step, _, lift_eq_ok.mpr ⟨goes, rfl⟩, driven rest⟩

end ProbCore.Kernel
