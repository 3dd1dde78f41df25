import ProbCore.Proofs.ExactScore
import ProbCore.Proofs.Proposal
import ProbCore.Proofs.Rerun

/-! Every trace that the kernel makes is the trace of a run of the program from its start, however
it was put together from parts of older traces. -/

namespace ProbCore

open Kernel

theorem parts_at {α : Type} {xs : List α} {i : Nat} {x : α} (site : xs[i]? = some x) :
    xs = xs.take i ++ x :: xs.drop (i + 1) := by
  obtain ⟨inside, found⟩ := List.getElem?_eq_some_iff.mp site
  rw [← found, List.cons_getElem_drop_succ, List.take_append_drop]

section

variable {κ D R : Type} [Score R]

/-- Running the program from the store absorbs these events and gives this trace. -/
inductive Replays (laws : Densities D R) (P : PlainProgram κ D R) (s : Store) :
    List (Event κ D R) → Trace κ D R → Prop where
  | start : Replays laws P s [] (.start P.entry s)
  | run {step es T s' e} (begins : P.next P.entry s .absent = .ok step)
      (runs : Runs laws P .zero step es T s' e) :
      Replays laws P s es (T.trace (Event.choices es) s' e)

variable {laws : Densities D R} {P : PlainProgram κ D R} {s : Store} {es fs : List (Event κ D R)}
  {t : Trace κ D R}

namespace Replays

theorem choices_eq (replays : Replays laws P s es t) : t.choices = Event.choices es := by
  cases replays with
  | start => rfl
  | run => rfl

theorem extend (replays : Replays laws P s es t) {k : κ} (ending : t.ending = .suspended k)
    {step : Step κ D R} (goes : P.next k t.store .absent = .ok step) {T : Totals R} {s' : Store}
    {e : Ending κ} (runs : Runs laws P ⟨t.score, t.prior, t.factors⟩ step fs T s' e) :
    Replays laws P s (es ++ fs) (T.trace (t.choices ++ Event.choices fs) s' e) := by
  cases replays with
  | start =>
    cases ending
    exact .run goes runs
  | run begins before =>
    cases ending
    have whole := Replays.run begins (before.extend goes runs)
    rwa [Event.choices_append] at whole

theorem around (replays : Replays laws P s es t) {i : Nat} {c : Choice κ D R}
    (site : t.choices[i]? = some c) :
    ∃ step before after T s' e, P.next P.entry s .absent = .ok step ∧
      Runs laws P .zero step (before ++ .choice c :: after) T s' e ∧
      es = before ++ .choice c :: after ∧ t = T.trace (Event.choices es) s' e ∧
      Event.choices before = t.choices.take i ∧ Event.choices after = t.choices.drop (i + 1) := by
  cases replays with
  | start => cases site
  | @run step es T s' e begins runs =>
    obtain ⟨before, after, rfl, taken, dropped⟩ := Event.split_at_choice (parts_at site)
    exact ⟨step, before, after, T, s', e, begins, runs, rfl, rfl, taken, dropped⟩

/-- A choice may be made again, and the program goes on from there. -/
theorem redraw (replays : Replays laws P s es t) {i : Nat} {c : Choice κ D R}
    (site : t.choices[i]? = some c) {v : Value} {lp : R} (weighs : laws.logDensity c.dist v = .ok lp)
    {step : Step κ D R} (goes : P.next c.k c.store v = .ok step) {T : Totals R} {s' : Store}
    {e : Ending κ} (runs : Runs laws P (c.totals.choose lp) step fs T s' e) :
    ∃ before after, es = before ++ .choice c :: after ∧ Event.choices before = t.choices.take i ∧
      Replays laws P s (before ++ .choice (c.redrawn v lp) :: fs)
        (T.trace (t.choices.take i ++ c.redrawn v lp :: Event.choices fs) s' e) := by
  obtain ⟨step', before, after, _, _, _, begins, old, same, _, taken, _⟩ := replays.around site
  have whole := Replays.run begins (old.replace weighs goes runs)
  rw [Event.choices_append, Event.choices_choice, taken] at whole
  exact ⟨before, after, same, taken, whole⟩

end Replays

theorem Runs.stays_inside {σ : Type} [Host (EStateM Failure σ) D R] [LawfulHost σ D R]
    {resume : Resume (EStateM Failure σ) κ D R} {inside : κ → Prop}
    (performs : Performs resume P inside) {T T' : Totals R} {step : Step κ D R} {s' : Store}
    {e : Ending κ} (runs : Runs laws P T step es T' s' e)
    (held : ∀ k, step.rest? = some k → inside k) :
    (∀ c ∈ Event.choices es, inside c.k) ∧ ∀ k, e = .suspended k → inside k := by
  induction runs with
  | exit => exact ⟨nofun, nofun⟩
  | suspend =>
    refine ⟨nofun, fun k same => ?_⟩
    cases same
    exact held _ rfl
  | factor goes runs ih => exact ih fun _ => performs.closed (held _ rfl) goes
  | choice weighs goes runs ih =>
    obtain ⟨choices, ending⟩ := ih fun _ => performs.closed (held _ rfl) goes
    exact ⟨List.forall_mem_cons.mpr ⟨held _ rfl, choices⟩, ending⟩

end

section

variable {σ κ D R : Type} [Host (EStateM Failure σ) D R] [LawfulHost σ D R] [Score R]
  {resume : Resume (EStateM Failure σ) κ D R} {P : PlainProgram κ D R} {inside : κ → Prop}
  {s : Store} {es : List (Event κ D R)} {t t' : Trace κ D R} {fuel : Nat} {limit : Option Nat}

theorem Replays.stays_inside (performs : Performs resume P inside)
    (replays : Replays (LawfulHost.densities σ) P s es t) :
    (∀ c ∈ t.choices, inside c.k) ∧ ∀ k, t.ending = .suspended k → inside k := by
  cases replays with
  | start =>
    refine ⟨nofun, fun k same => ?_⟩
    cases same
    exact performs.entry
  | run begins runs => exact runs.stays_inside performs fun _ => performs.closed performs.entry begins

/-- The traces that the operations of the kernel make from the start, in any order and under any
limits. -/
inductive Reachable (resume : Resume (EStateM Failure σ) κ D R) (entry : κ) (s : Store) :
    Trace κ D R → Prop where
  | start : Reachable resume entry s (.start entry s)
  | extend {t t' : Trace κ D R} {fuel : Nat} {limit : Option Nat} (before : Reachable resume entry s t)
      (returned : CanReturn (extend resume fuel t limit) (some t')) : Reachable resume entry s t'
  | simulate {t : Trace κ D R} {fuel : Nat} {limit : Option Nat}
      (returned : CanReturn (simulate resume fuel entry s limit) (some t)) :
      Reachable resume entry s t
  | findStart {t : Trace κ D R} {fuel : Nat} {limit : Option Nat} {attempts : Given Nat}
      (returned : CanReturn (findStart resume fuel entry s limit attempts) t) :
      Reachable resume entry s t
  | regenerate {t t' : Trace κ D R} {r : R} {fuel : Nat} {limit : Option Nat}
      (before : Reachable resume entry s t)
      (returned : CanReturn (regenerate resume fuel t limit) (some (t', r))) :
      Reachable resume entry s t'
  | move {t t' : Trace κ D R} {accepted : Bool} {fuel : Nat} {limit : Option Nat}
      (before : Reachable resume entry s t)
      (returned : CanReturn (move resume fuel t limit) (t', accepted)) : Reachable resume entry s t'

theorem extend_replays (performs : Performs resume P inside)
    (replays : Replays (LawfulHost.densities σ) P s es t) {w w' : σ} {outcome : Option (Trace κ D R)}
    (ready : LawfulHost.ready w) (returned : extend resume fuel t limit w = .ok outcome w') :
    LawfulHost.ready w' ∧
      ∀ t', outcome = some t' → ∃ fs, Replays (LawfulHost.densities σ) P s fs t' := by
  unfold extend at returned
  cases ending : t.ending with
  | done v =>
    rw [ending] at returned
    obtain ⟨rfl, rfl⟩ := pure_eq_ok.mp returned
    refine ⟨ready, fun t' same => ?_⟩
    cases same
    exact ⟨es, replays⟩
  | suspended k =>
    rw [ending] at returned
    obtain ⟨step, middle, resumed, rest⟩ := bind_eq_ok.mp returned
    have member := (replays.stays_inside performs).2 k ending
    obtain ⟨goes, ready'⟩ := performs.next_eq member ready resumed
    obtain ⟨result, last, driven, rest⟩ := bind_eq_ok.mp rest
    obtain ⟨rfl, rfl⟩ := pure_eq_ok.mp rest
    obtain ⟨kept, recorded⟩ := drive_records performs (Trailing.always resume inside)
      (fun _ => performs.closed member goes) ready' driven
    refine ⟨kept, fun t' same => ?_⟩
    obtain ⟨out, rfl, rfl⟩ := Option.map_eq_some_iff.mp same
    obtain ⟨draws, _, records⟩ := recorded out rfl
    obtain ⟨fs, T, s', e, runs, _, _, made, _⟩ := records.runs
    rw [made, List.reverse_reverse]
    exact ⟨_, replays.extend ending goes runs⟩

theorem regenerate_replays (performs : Performs resume P inside)
    (replays : Replays (LawfulHost.densities σ) P s es t) {w w' : σ} {r : R}
    (ready : LawfulHost.ready w)
    (returned : regenerate resume fuel t limit w = .ok (some (t', r)) w') :
    ∃ fs, Replays (LawfulHost.densities σ) P s fs t' := by
  obtain ⟨i, v, draws, _, _, _, proposes, _⟩ := regenerate_proposes performs
    (Trailing.always resume inside) (replays.stays_inside performs).1 ready returned
  obtain ⟨site, _, weighs, _, goes, records⟩ := proposes
  obtain ⟨fs, T, s', e, runs, _, _, made, _⟩ := records.runs
  obtain ⟨before, after, _, _, whole⟩ := replays.redraw site weighs goes runs
  rw [made, siteTape_choices]
  exact ⟨_, whole⟩

theorem findStart_replays (performs : Performs resume P inside) {attempts : Given Nat}
    {remaining attempt : Nat} {w w' : σ} (ready : LawfulHost.ready w)
    (returned : findStart.go resume fuel P.entry s limit attempts remaining attempt w = .ok t w') :
    ∃ fs, Replays (LawfulHost.densities σ) P s fs t := by
  induction remaining generalizing attempt w with
  | zero => exact absurd returned fail_ne_ok
  | succ remaining ih =>
    obtain ⟨outcome, middle, simulated, rest⟩ := bind_eq_ok.mp returned
    obtain ⟨ready', replays⟩ := extend_replays performs .start ready simulated
    cases outcome with
    | none => exact ih ready' rest
    | some t' =>
      cases likely : Score.less Score.impossible t'.score with
      | true =>
        simp only [likely] at rest
        obtain ⟨_, _, _, last⟩ := bind_eq_ok.mp rest
        obtain ⟨rfl, _⟩ := pure_eq_ok.mp last
        exact replays t rfl
      | false =>
        simp only [likely] at rest
        exact ih ready' rest

/-- Whatever the kernel makes is a run of the program from its start. -/
theorem Reachable.replays (performs : Performs resume P inside)
    (reachable : Reachable resume P.entry s t) :
    ∃ fs, Replays (LawfulHost.densities σ) P s fs t := by
  induction reachable with
  | start => exact ⟨[], .start⟩
  | extend before returned ih =>
    obtain ⟨fs, replays⟩ := ih
    obtain ⟨w, w', ready, ran⟩ := returned
    exact (extend_replays performs replays ready ran).2 _ rfl
  | simulate returned =>
    obtain ⟨w, w', ready, ran⟩ := returned
    exact (extend_replays performs .start ready ran).2 _ rfl
  | findStart returned =>
    obtain ⟨w, w', ready, ran⟩ := returned
    exact findStart_replays performs ready ran
  | regenerate before returned ih =>
    obtain ⟨fs, replays⟩ := ih
    obtain ⟨w, w', ready, ran⟩ := returned
    exact regenerate_replays performs replays ready ran
  | move before returned ih =>
    obtain ⟨fs, replays⟩ := ih
    obtain ⟨w, w', ready, ran⟩ := returned
    obtain ⟨proposed, middle, regenerated, rest⟩ := bind_eq_ok.mp ran
    cases proposed with
    | none =>
      obtain ⟨same, _⟩ := pure_eq_ok.mp rest
      cases same
      exact ⟨fs, replays⟩
    | some new =>
      obtain ⟨new, ratio⟩ := new
      obtain ⟨u, _, _, rest⟩ := bind_eq_ok.mp rest
      cases accepts : Score.less u ratio with
      | true =>
        simp only [accepts] at rest
        cases (pure_eq_ok.mp rest).1
        exact regenerate_replays performs replays ready regenerated
      | false =>
        simp only [accepts] at rest
        cases (pure_eq_ok.mp rest).1
        exact ⟨fs, replays⟩

end

structure ExactAddition (R : Type) [Score R] : Prop where
  assoc (x y z : R) : x + y + z = x + (y + z)
  comm (x y : R) : x + y = y + x
  zero_left (x : R) : Score.zero + x = x
  cancel_left {x : R} (y : R) : Score.isFinite x = true → x + y - x = y

theorem Exact.exactAddition : ExactAddition Exact where
  assoc := add_assoc
  comm := add_comm
  zero_left x := by rw [zero_eq, zero_add]
  cancel_left {x} y finite := by
    cases x with
    | real x => rw [add_comm, add_sub_assoc, real_sub, sub_self, real_zero, add_zero]
    | negInf | posInf | nan => cases finite

section

variable {κ D R : Type} [Score R] {laws : Densities D R} {P : PlainProgram κ D R}
  {es : List (Event κ D R)}

namespace ExactAddition

theorem foldl_add (exact : ExactAddition R) (x : R) (xs : List R) :
    xs.foldl (· + ·) x = x + Score.sum xs := by
  induction xs generalizing x with
  | nil => rw [Score.sum, List.foldl_nil, List.foldl_nil, exact.comm, exact.zero_left]
  | cons y ys ih =>
    calc (y :: ys).foldl (· + ·) x = x + y + Score.sum ys := ih (x + y)
      _ = x + (Score.zero + y + Score.sum ys) := by rw [exact.zero_left, exact.assoc]
      _ = x + Score.sum (y :: ys) := by rw [← ih (Score.zero + y), Score.sum, List.foldl_cons]

theorem sum_cons (exact : ExactAddition R) (x : R) (xs : List R) :
    Score.sum (x :: xs) = x + Score.sum xs := by
  rw [Score.sum, List.foldl_cons, exact.foldl_add, exact.zero_left]

theorem sum_nil : Score.sum ([] : List R) = Score.zero := rfl

end ExactAddition

/-- Without rounding, a run adds the densities of its choices and its factors to the score. -/
theorem Runs.score_eq (exact : ExactAddition R) {T T' : Totals R} {step : Step κ D R} {s : Store}
    {e : Ending κ} (runs : Runs laws P T step es T' s e) :
    T'.score = T.score + (Score.sum ((Event.choices es).map (·.logDensity)) +
      Score.sum (Event.factors es)) := by
  have right_zero (x : R) : x + Score.zero = x := by rw [exact.comm, exact.zero_left]
  induction runs with
  | @exit T s v =>
    change T.score = T.score + (Score.zero + Score.zero)
    rw [right_zero, right_zero]
  | @suspend T s k a x =>
    change T.score + x = T.score + (Score.zero + Score.sum [x])
    rw [exact.sum_cons, ExactAddition.sum_nil, right_zero, exact.zero_left]
  | @factor T T' s s' k a x step es e goes runs ih =>
    rw [ih, Event.choices_factor, Event.factors_factor, exact.sum_cons]
    change T.score + x + _ = _
    rw [exact.assoc, ← exact.assoc x, exact.comm x, exact.assoc _ x]
  | @choice T T' s s' k a d v lp step es e weighs goes runs ih =>
    rw [ih, Event.choices_choice, Event.factors_choice, List.map_cons, exact.sum_cons]
    change T.score + lp + _ = T.score + (lp + _ + _)
    rw [exact.assoc, exact.assoc lp]

theorem Replays.rerun_returns {σ : Type} [Host (EStateM Failure σ) D R] [LawfulHost σ D R]
    {resume : Resume (EStateM Failure σ) κ D R} {inside : κ → Prop}
    (performs : Performs resume P inside) {s : Store} {t : Trace κ D R}
    (replays : Replays (LawfulHost.densities σ) P s es t) :
    ∃ n, ∀ fuel ≥ n, Returns
      (rerun resume fuel P.entry s (t.choices.map (·.value)) (t.ending.stop t.factors))
      (some (t, Event.factors es)) := by
  cases replays with
  | start => exact ⟨0, fun _ _ => Returns.pure _⟩
  | @run step es T s' e begins runs =>
    let values := (Event.choices es).map (·.value)
    have begun : (Forced.start values : Forced κ D R).tape.totals = Totals.zero := rfl
    obtain ⟨n, driven⟩ := drive_forced performs runs
      (fun _ => performs.closed performs.entry begins) begun rfl
    refine ⟨n, fun fuel enough => ?_⟩
    have goes_on : (T.trace (Event.choices es) s' e).ending.stop
        (T.trace (Event.choices es) s' e).factors ≠ some 0 := by
      cases e with
      | done v => exact nofun
      | suspended k =>
        intro same
        have none_absorbed : T.factors = 0 := Option.some.inj same
        have more := runs.suspended_after
        omega
    unfold rerun
    rw [if_neg goes_on]
    exact (performs.returns performs.entry begins).bind (driven fuel enough)

/-- Rerunning the program from its start, with the values of the choices of a trace that the
kernel has made, gives that trace again, whatever operations it comes from: the same choices with
the same distributions, densities, stores and totals, and the same end. Its prior is the sum of
the densities of its choices. Without rounding, the factors that the rerun absorbs make up the
rest of its score. -/
theorem reachable_reruns {σ : Type} [Host (EStateM Failure σ) D R] [LawfulHost σ D R]
    {resume : Resume (EStateM Failure σ) κ D R} {inside : κ → Prop}
    (performs : Performs resume P inside) {s : Store} {t : Trace κ D R}
    (reachable : Reachable resume P.entry s t) :
    ∃ absorbed : List R,
      (∃ n, ∀ fuel ≥ n, Returns
        (rerun resume fuel P.entry s (t.choices.map (·.value)) (t.ending.stop t.factors))
        (some (t, absorbed))) ∧
      absorbed.length = t.factors ∧
      t.prior = Score.sum (t.choices.map (·.logDensity)) ∧
      (ExactAddition R → t.score = t.prior + Score.sum absorbed ∧
        (Score.isFinite t.prior = true → t.likelihood = Score.sum absorbed)) := by
  obtain ⟨es, replays⟩ := reachable.replays performs
  refine ⟨Event.factors es, replays.rerun_returns performs, ?_⟩
  cases replays with
  | start =>
    refine ⟨rfl, rfl, fun exact => ⟨(exact.zero_left _).symm, fun finite => ?_⟩⟩
    exact (congrArg (· - _) (exact.zero_left _).symm).trans (exact.cancel_left _ finite)
  | @run step es T s' e begins runs =>
    refine ⟨?_, runs.prior_eq, fun exact => ?_⟩
    · exact (runs.factors_eq.trans (Nat.zero_add _)).symm
    · have total : T.score = T.prior + Score.sum (Event.factors es) := by
        rw [runs.score_eq exact, runs.prior_eq]
        exact exact.zero_left _
      refine ⟨total, fun finite => ?_⟩
      change T.score - T.prior = _
      rw [total]
      exact exact.cancel_left _ finite

end

section

namespace SecondCoin

def first : Address := Address.root.extend (.text "first")

def second : Address := Address.root.extend (.text "second")

/-- A fair coin, after heads a second one, and then a factor. -/
def program : PlainProgram Nat Unit Exact where
  entry := 0
  next
    | 0, s, _ => .ok (.sample s 1 first ())
    | 1, s, .bool true => .ok (.sample s 2 second ())
    | 1, s, _ | 2, s, _ => .ok (.factor s 3 .root (.real 1))
    | _, s, _ => .ok (.exit s (.bool true))

noncomputable def half : Exact := .real (Real.log 2⁻¹)

noncomputable def firstChoice (b : Bool) : Choice Nat Unit Exact :=
  ⟨first, (), .bool b, half, 1, .empty, Score.zero, Score.zero, 0⟩

noncomputable def secondChoice (b : Bool) : Choice Nat Unit Exact :=
  ⟨second, (), .bool b, half, 2, .empty, Score.zero + half, Score.zero + half, 0⟩

/-- What a run absorbs whose coins fall like this. -/
noncomputable def events : Option Bool → List (Event Nat Unit Exact)
  | none => [.choice (firstChoice false), .factor (.real 1)]
  | some b => [.choice (firstChoice true), .choice (secondChoice b), .factor (.real 1)]

noncomputable def totals : Option Bool → Totals Exact
  | none => (Totals.zero.choose half).absorb (.real 1)
  | some _ => ((Totals.zero.choose half).choose half).absorb (.real 1)

noncomputable def trace (coins : Option Bool) : Trace Nat Unit Exact :=
  (totals coins).trace (Event.choices (events coins)) .empty (.done (.bool true))

theorem runs (coins : Option Bool) : Runs fairCoin program .zero (.sample .empty 1 first ())
    (events coins) (totals coins) .empty (.done (.bool true)) := by
  cases coins with
  | none => exact .choice rfl rfl (.factor rfl .exit)
  | some b => exact .choice rfl rfl (.choice rfl rfl (.factor rfl .exit))

theorem hashable {a : Address} (named : a = first ∨ a = second) : a.isHashable = true := by
  rcases named with rfl | rfl
  all_goals simp [first, second, Address.extend, Address.root, Address.isHashable,
    Value.allHashable, Value.isHashable]

theorem fines (coins : Option Bool) : ∀ e ∈ events coins, fine e = true := by
  have thrown (b : Bool) : fine (.choice (firstChoice b)) = true :=
    fine_choice.mpr ⟨hashable (.inl rfl), rfl⟩
  have again (b : Bool) : fine (.choice (secondChoice b)) = true :=
    fine_choice.mpr ⟨hashable (.inr rfl), rfl⟩
  have tolerated : fine (.factor (.real 1) : Event Nat Unit Exact) = true := rfl
  cases coins with
  | none =>
    exact List.forall_mem_cons.mpr ⟨thrown false, List.forall_mem_singleton.mpr tolerated⟩
  | some b =>
    exact List.forall_mem_cons.mpr ⟨thrown true,
      List.forall_mem_cons.mpr ⟨again b, List.forall_mem_singleton.mpr tolerated⟩⟩

theorem drawables (coins : Option Bool) :
    ∀ c ∈ Event.choices (events coins), Drawable fairCoin c.dist c.value := by
  cases coins with
  | none => exact List.forall_mem_singleton.mpr (fairCoin_accepts false)
  | some b =>
    exact List.forall_mem_cons.mpr
      ⟨fairCoin_accepts true, List.forall_mem_singleton.mpr (fairCoin_accepts b)⟩

theorem reachable (coins : Option Bool) :
    Reachable (program.resume : Resume (EStateM Failure (Script fairCoin)) Nat Unit Exact)
      program.entry .empty (trace coins) := by
  have ends : Ends none (totals coins).factors (.done (.bool true) : Ending Nat) := .inr rfl
  obtain ⟨n, simulated⟩ := simulate_eq rfl (runs coins) (fines coins) (drawables coins) ends
  exact .simulate ⟨_, _, trivial, simulated n le_rfl []⟩

theorem addresses {T T' : Totals Exact} {es : List (Event Nat Unit Exact)} {s : Store}
    {e : Ending Nat} (runs : Runs fairCoin program T (.sample .empty 1 first ()) es T' s e) :
    (Event.choices es).map (·.address) = [first] ∨
      (Event.choices es).map (·.address) = [first, second] := by
  have ended {T T' : Totals Exact} {es : List (Event Nat Unit Exact)} {s s' : Store}
      {e : Ending Nat} (runs : Runs fairCoin program T (.factor s 3 .root (.real 1)) es T' s' e) :
      Event.choices es = [] := by
    cases runs with
    | suspend => rfl
    | factor goes runs =>
      cases goes
      cases runs
      rfl
  cases runs with
  | @choice _ _ _ _ _ _ _ v lp step es _ _ goes runs =>
    have next : step = .sample .empty 2 second () ∨ step = .factor .empty 3 .root (.real 1) := by
      cases v with
      | bool b =>
        cases b with
        | true =>
          cases goes
          exact .inl rfl
        | false =>
          cases goes
          exact .inr rfl
      | _ =>
        cases goes
        exact .inr rfl
    rcases next with rfl | rfl
    · cases runs with
      | choice _ goes runs =>
        cases goes
        exact .inr (congrArg (fun cs => [first, second] ++ cs.map (·.address)) (ended runs))
    · exact .inl (congrArg (fun cs => [first] ++ cs.map (·.address)) (ended runs))

end SecondCoin

/-- The trace in which both coins show heads is rerun; its one factor is 1. -/
theorem headsTwice_reruns :
    ∃ n, ∀ fuel ≥ n, Returns
      (rerun SecondCoin.program.resume fuel 0 .empty [.bool true, .bool true] none :
        EStateM Failure (Script fairCoin) _)
      (some (SecondCoin.trace (some true), [.real 1])) := by
  obtain ⟨absorbed, reruns, number, _, exactly⟩ := reachable_reruns
    SecondCoin.program.resume_performs (SecondCoin.reachable (some true))
  obtain ⟨x, rfl⟩ := List.length_eq_one_iff.mp number
  have likelihood : (SecondCoin.trace (some true)).likelihood = .real 1 := by
    have prior : Score.zero + SecondCoin.half + SecondCoin.half =
        Exact.real (Real.log 2⁻¹ + Real.log 2⁻¹) := by
      rw [Exact.zero_eq, zero_add]
      rfl
    change Score.zero + SecondCoin.half + SecondCoin.half + Exact.real 1 -
      (Score.zero + SecondCoin.half + SecondCoin.half) = _
    rw [prior, Exact.real_add, Exact.real_sub, add_sub_cancel_left]
  have sole : Score.sum [x] = x := (congrArg (· + x) Exact.zero_eq).trans (zero_add x)
  rw [(exactly Exact.exactAddition).2 rfl, sole] at likelihood
  subst likelihood
  exact reruns

end

end ProbCore
