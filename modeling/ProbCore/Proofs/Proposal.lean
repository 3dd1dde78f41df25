import ProbCore.Proofs.KernelRuns

/-! Proposals of the kernel. A proposal redraws one choice of a trace, keeps what came before
it, and records the program anew from there. -/

namespace ProbCore.Kernel

section

variable {κ D R : Type} [Score R]

/-- The tape on which a proposal goes on after it has redrawn the choice at `i`. -/
def siteTape (t : Trace κ D R) (i : Nat) (c : Choice κ D R) (v : Value) (lp : R) :
    Recording κ D R :=
  Recording.record
    ⟨(t.choices.take i).reverse, c.score, c.prior, c.factors,
      (t.choices.take (i + 1)).map (·.address), Score.zero⟩
    c.store c.k c.address c.dist v lp

theorem siteTape_choices (t : Trace κ D R) (i : Nat) (c : Choice κ D R) (v : Value) (lp : R)
    (cs : List (Choice κ D R)) :
    (siteTape t i c v lp).choices.reverse ++ cs = t.choices.take i ++ c.redrawn v lp :: cs := by
  rw [siteTape, record_reverse, List.reverse_reverse]
  rfl

def logRatio (t : Trace κ D R) (i : Nat) (c : Choice κ D R) (lp : R) (out : Recorded κ D R) : R :=
  out.trace.score - t.score
      + (-(Score.logNat out.trace.choices.length) + c.logDensity
        + (dropped (t.choices.drop (i + 1)) out.reused).foldl (· + ·) Score.zero)
    - proposalScore t.choices.length lp out.fresh

/-- Redrawing the choice at `i` to `v`, and drawing these values after it, proposes a trace with
a log acceptance ratio. -/
inductive Proposes (laws : Densities D R) (P : PlainProgram κ D R) (drawable : D → Value → Prop)
    (limit : Option Nat) (t : Trace κ D R) (i : Nat) (v : Value) (draws : List Value) :
    Trace κ D R → R → Prop where
  | redraw {c lp step out} (site : t.choices[i]? = some c) (drawn : drawable c.dist v)
      (weighs : laws.logDensity c.dist v = .ok lp) (possible : Score.isImpossible lp = false)
      (goes : P.next c.k c.store v = .ok step)
      (records : Records laws P drawable limit (some t) (siteTape t i c v lp) step draws out) :
      Proposes laws P drawable limit t i v draws out.trace (logRatio t i c lp out)

end

variable {σ κ D R : Type} [Host (EStateM Failure σ) D R] [LawfulHost σ D R] [Score R]

/-- What becomes of a trace when its choice at `i` is redrawn: the new choice there, the decisions
after it, and how the execution ends. -/
inductive Redraws (resume : Resume (EStateM Failure σ) κ D R) (limit : Option Nat) (t : Trace κ D R)
    (i : Nat) : σ → Choice κ D R → List (Decision κ D R) → Verdict κ D R → σ → Prop where
  | refused {c v lp w w'} (site : t.choices[i]? = some c)
      (drew : (Host.draw c.dist : EStateM Failure σ Value) w = .ok v w')
      (weighs : (LawfulHost.densities σ).logDensity c.dist v = .ok lp)
      (impossible : Score.isImpossible lp = true) :
      Redraws resume limit t i w (c.redrawn v lp) [] (.atChoice ⟨c.redrawn v lp, none⟩) w'
  | goes {c v lp step ds verdict w drew_to middle w'} (site : t.choices[i]? = some c)
      (drew : (Host.draw c.dist : EStateM Failure σ Value) w = .ok v drew_to)
      (weighs : (LawfulHost.densities σ).logDensity c.dist v = .ok lp)
      (possible : Score.isImpossible lp = false) (goes : resume c.k c.store v drew_to = .ok step middle)
      (course : Course resume limit (some t) (siteTape t i c v lp) step middle ds verdict w') :
      Redraws resume limit t i w (c.redrawn v lp) ds verdict w'

variable {resume : Resume (EStateM Failure σ) κ D R} {P : PlainProgram κ D R} {inside : κ → Prop}
  {drawable : D → Value → Prop} {trail : σ → List Value → σ → Prop}

/-- Every call that proposes a move either has no site, or redraws the one that it picks. -/
theorem regenerate_redraws {limit : Option Nat} {fuel : Nat} {t : Trace κ D R}
    {outcome : Option (Trace κ D R × R)} {w w' : σ}
    (returned : regenerate resume fuel t limit w = .ok outcome w') :
    (outcome = none ∧ (t.choices = [] ∨ ∃ i,
        (Host.indexBelow t.choices.length : EStateM Failure σ Nat) w = .ok i w' ∧ t.choices[i]? = none)) ∨
      ∃ i c c' ds verdict middle,
        (Host.indexBelow t.choices.length : EStateM Failure σ Nat) w = .ok i middle ∧
        t.choices[i]? = some c ∧ Redraws resume limit t i middle c' ds verdict w' ∧
        outcome = verdict.outcome.map fun out => (out.trace, logRatio t i c c'.logDensity out) := by
  unfold regenerate at returned
  cases none_there : t.choices.length == 0 with
  | true =>
    rw [none_there] at returned
    have empty : t.choices = [] := List.length_eq_zero_iff.mp (beq_iff_eq.mp none_there)
    exact .inl ⟨(pure_eq_ok.mp returned).1, .inl empty⟩
  | false =>
    rw [none_there] at returned
    obtain ⟨i, middle, picked, rest⟩ := bind_eq_ok.mp returned
    cases site : t.choices[i]? with
    | none =>
      simp only [site] at rest
      obtain ⟨rfl, rfl⟩ := pure_eq_ok.mp rest
      exact .inl ⟨rfl, .inr ⟨i, picked, site⟩⟩
    | some c =>
      simp only [site] at rest
      obtain ⟨v, drew_to, drew, rest⟩ := bind_eq_ok.mp rest
      obtain ⟨lp, _, weighed, going⟩ := bind_eq_ok.mp rest
      obtain ⟨weighs, rfl⟩ := logDensity_eq_ok.mp weighed
      cases possible : Score.isImpossible lp with
      | true =>
        rw [possible] at going
        obtain ⟨rfl, rfl⟩ := pure_eq_ok.mp going
        exact .inr ⟨i, c, _, _, _, middle, picked, site, .refused site drew weighs possible, rfl⟩
      | false =>
        rw [possible] at going
        obtain ⟨step, resumed_to, goes, rest⟩ := bind_eq_ok.mp going
        obtain ⟨result, last, driven, rest⟩ := bind_eq_ok.mp rest
        obtain ⟨ds, verdict, course, rfl⟩ := drive_course driven
        have redraws {w'' : σ} (ended : w'' = last) :
            Redraws resume limit t i middle (c.redrawn v lp) ds verdict w'' := by
          rw [ended]
          exact .goes site drew weighs possible goes course
        cases verdict with
        | recorded out =>
          obtain ⟨same, ended⟩ := pure_eq_ok.mp rest
          exact .inr ⟨i, c, _, ds, _, middle, picked, site, redraws ended, same⟩
        | atChoice d =>
          obtain ⟨same, ended⟩ := pure_eq_ok.mp rest
          exact .inr ⟨i, c, _, ds, _, middle, picked, site, redraws ended, same⟩
        | atFactor x =>
          obtain ⟨same, ended⟩ := pure_eq_ok.mp rest
          exact .inr ⟨i, c, _, ds, _, middle, picked, site, redraws ended, same⟩

theorem regenerate_proposes (performs : Performs resume P inside)
    (trailing : Trailing resume inside drawable trail) {fuel : Nat} {t t' : Trace κ D R}
    {limit : Option Nat} {r : R} {w w' : σ} (held : ∀ c ∈ t.choices, inside c.k)
    (ready : LawfulHost.ready w)
    (returned : regenerate resume fuel t limit w = .ok (some (t', r)) w') :
    ∃ i v draws middle,
      (Host.indexBelow t.choices.length : EStateM Failure σ Nat) w = .ok i middle ∧
      trail middle (v :: draws) w' ∧
      Proposes (LawfulHost.densities σ) P drawable limit t i v draws t' r ∧
      LawfulHost.ready w' := by
  rcases regenerate_redraws returned with ⟨nothing, _⟩ |
    ⟨i, c, c', ds, verdict, middle, picked, site, redraws, same⟩
  · cases nothing
  have ready₁ := LawfulHost.indexBelow_ready ready picked
  cases redraws with
  | refused => cases same
  | goes site' drew weighs possible goes course =>
    obtain rfl := Option.some.inj (site.symm.trans site')
    obtain ⟨drawn, trails⟩ := trailing.draw ready₁ drew
    have ready₂ := LawfulHost.draw_ready ready₁ drew
    have member := held c (List.mem_of_getElem? site)
    obtain ⟨known, ready₃⟩ := performs.next_eq member ready₂ goes
    obtain ⟨kept, recorded⟩ := course.records performs trailing (fun _ => performs.closed member known) ready₃
    cases verdict with
    | atChoice | atFactor => cases same
    | recorded out =>
      cases same
      obtain ⟨draws, trailed, records⟩ := recorded out rfl
      exact ⟨i, _, draws, middle, picked, trails draws _ (trailing.resume member ready₂ goes trailed),
        .redraw site drawn weighs possible known records, kept⟩

theorem Decides.all_drawn {laws : Densities D R} {cs : List (Choice κ D R)}
    (drawn : ∀ c ∈ cs, drawable c.dist c.value) (reused : List Address) (fresh : R) :
    ∃ fresh', Decides laws drawable none reused fresh cs (cs.map (·.value)) reused fresh' := by
  induction cs generalizing fresh with
  | nil => exact ⟨fresh, .nil⟩
  | cons c cs ih =>
    obtain ⟨first, others⟩ := List.forall_mem_cons.mp drawn
    obtain ⟨fresh', decides⟩ := ih others (fresh + c.logDensity)
    exact ⟨fresh', .drawn rfl first decides⟩

/-- The draws that redraw the choice at `i` to the first of these values, and later choices to the
others. -/
def redraws (i : Nat) (values : List Value) : List (Draw R) := .index i :: values.map .value

/-- A simulation can make every run of the program whose choices have mass. -/
theorem simulate_eq {laws : Densities D R} {limit : Option Nat} {s s' : Store} {step : Step κ D R}
    {es : List (Event κ D R)} {T : Totals R} {e : Ending κ}
    (begins : P.next P.entry s .absent = .ok step) (runs : Runs laws P .zero step es T s' e)
    (fines : ∀ v ∈ es, fine v = true)
    (drawn : ∀ c ∈ Event.choices es, Drawable laws c.dist c.value) (ends : Ends limit T.factors e) :
    Script.Takes laws (fun fuel => simulate P.resume fuel P.entry s limit)
      (((Event.choices es).map (·.value)).map .value) (some (T.trace (Event.choices es) s' e)) := by
  obtain ⟨fresh, decides⟩ := Decides.all_drawn drawn [] Score.zero
  let tape : Recording κ D R := ⟨[], Score.zero, Score.zero, 0, [], Score.zero⟩
  have begun : tape.totals = Totals.zero := rfl
  obtain ⟨n, driven⟩ := (Records.of_runs runs fines begun decides ends).drive_eq
  refine ⟨n, fun fuel enough rest => ?_⟩
  refine bind_eq_ok.mpr ⟨step, _, lift_eq_ok.mpr ⟨begins, rfl⟩, ?_⟩
  exact bind_eq_ok.mpr ⟨_, _, driven fuel enough rest, rfl⟩

/-- The kernel makes every proposal, given the draws and fuel enough. -/
theorem Proposes.regenerate_eq {laws : Densities D R} {limit : Option Nat} {t t' : Trace κ D R}
    {i : Nat} {v : Value} {draws : List Value} {r : R}
    (proposes : Proposes laws P (Drawable laws) limit t i v draws t' r) :
    Script.Takes laws (fun fuel => regenerate P.resume fuel t limit) (redraws i (v :: draws))
      (some (t', r)) := by
  obtain ⟨site, drawn, weighs, possible, goes, records⟩ := proposes
  obtain ⟨n, driven⟩ := records.drive_eq
  refine ⟨n, fun fuel enough rest => ?_⟩
  have below : i < t.choices.length := (List.getElem?_eq_some_iff.mp site).1
  have some_there : ¬ (t.choices.length == 0) = true := by
    simp only [beq_iff_eq]
    omega
  unfold regenerate
  dsimp only
  rw [if_neg some_there]
  refine bind_eq_ok.mpr ⟨i, _, Script.indexBelow_eq_ok.mpr ⟨rfl, below⟩, ?_⟩
  rw [site]
  refine bind_eq_ok.mpr ⟨v, _, Script.draw_eq_ok.mpr ⟨rfl, drawn⟩, ?_⟩
  refine bind_eq_ok.mpr ⟨_, _, logDensity_eq_ok.mpr ⟨weighs, rfl⟩, ?_⟩
  rw [if_neg (Bool.eq_false_iff.mp possible)]
  refine bind_eq_ok.mpr ⟨_, _, lift_eq_ok.mpr ⟨goes, rfl⟩, ?_⟩
  exact bind_eq_ok.mpr ⟨_, _, driven fuel enough rest, rfl⟩

/-- A move accepts a proposal when the logarithm of its uniform draw is below the ratio. -/
theorem Proposes.move_eq {laws : Densities D R} {limit : Option Nat} {t t' : Trace κ D R}
    {i : Nat} {v : Value} {draws : List Value} {r : R}
    (proposes : Proposes laws P (Drawable laws) limit t i v draws t' r) :
    ∀ u, Script.Takes laws (fun fuel => move P.resume fuel t limit)
      (redraws i (v :: draws) ++ [.logUniform u])
      (if Score.less u r then (t', true) else (t, false)) := by
  intro u
  obtain ⟨n, regenerated⟩ := proposes.regenerate_eq
  refine ⟨n, fun fuel enough rest => ?_⟩
  rw [List.append_assoc]
  refine bind_eq_ok.mpr ⟨_, _, regenerated fuel enough (.logUniform u :: rest), ?_⟩
  refine bind_eq_ok.mpr ⟨u, ⟨rest⟩, Script.logUniform_eq_ok.mpr rfl, ?_⟩
  cases Score.less u r with
  | true => rfl
  | false => rfl

end ProbCore.Kernel
