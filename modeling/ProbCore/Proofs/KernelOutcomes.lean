import ProbCore.Proofs.KernelRuns
import ProbCore.Proofs.Yields

/-! The traces that the kernel can make on any host, of any program. What a recording can come
to is a relation with one rule for each thing that the handler does; facts about all traces are
invariants of the choices and factors that these rules allow. -/

namespace ProbCore

def Trace.totals {κ D R : Type} (t : Trace κ D R) : Totals R := ⟨t.score, t.prior, t.factors⟩

namespace Kernel

variable {σ κ D R : Type} [Host (EStateM Failure σ) D R] [Score R]

/-- Where the value of a choice comes from: it is drawn, or it is an old value that is carried
over. -/
def Offered (σ : Type) [Host (EStateM Failure σ) D R] (olds : Choice κ D R → Prop) (a : Address)
    (d : D) (v : Value) : Prop :=
  Yields (Host.draw d : EStateM Failure σ Value) v ∨
    ∃ c, olds c ∧ (c.address == a) = true ∧ c.value = v ∧
      Yields (Host.accepts d v : EStateM Failure σ Bool) true

theorem Offered.mono {olds others : Choice κ D R → Prop} {a : Address} {d : D} {v : Value}
    (offered : Offered σ olds a d v) (more : ∀ c, olds c → others c) : Offered σ others a d v := by
  rcases offered with drawn | ⟨c, member, kept⟩
  · exact .inl drawn
  · exact .inr ⟨c, more c member, kept⟩

def among (old : Option (Trace κ D R)) (c : Choice κ D R) : Prop := ∃ t, old = some t ∧ c ∈ t.choices

/-- What a recording can come to from a step on. -/
inductive Makes (resume : Resume (EStateM Failure σ) κ D R) (limit : Option Nat)
    (old : Option (Trace κ D R)) : Recording κ D R → Step κ D R → Recorded κ D R → Prop where
  | exit {tape s v} : Makes resume limit old tape (.exit s v) (tape.finish s (.done v))
  | suspend {tape s k a x} (fine : tolerable x = true) (stop : stops limit (tape.factors + 1) = true) :
      Makes resume limit old tape (.factor s k a x) ((tape.absorb x).finish s (.suspended k))
  | factor {tape s k a x step out} (fine : tolerable x = true)
      (running : stops limit (tape.factors + 1) = false) (goes : Yields (resume k s .absent) step)
      (makes : Makes resume limit old (tape.absorb x) step out) :
      Makes resume limit old tape (.factor s k a x) out
  | choice {tape s k a d v lp reused fresh step out} (offered : Offered σ (among old) a d v)
      (weighs : Yields (Host.logDensity d v : EStateM Failure σ R) lp)
      (possible : Score.isImpossible lp = false) (goes : Yields (resume k s v) step)
      (makes : Makes resume limit old
        ({ tape with reused, fresh }.record s k a d v lp) step out) :
      Makes resume limit old tape (.sample s k a d) out

section

variable [SoundHost σ D R] {resume : Resume (EStateM Failure σ) κ D R} {limit : Option Nat}
  {old : Option (Trace κ D R)} {tape : Recording κ D R}

omit [SoundHost σ D R] in
theorem carriedOver?_offers {a : Address} {d : D} {v : Value}
    (carried : Yields (carriedOver? old tape a d : EStateM Failure σ _) (some v)) :
    Offered σ (among old) a d v := by
  unfold carriedOver? at carried
  split at carried
  next => cases carried.pure
  next c found =>
    split at carried
    next => cases carried.pure
    next =>
      obtain ⟨accepted, asked, returned⟩ := carried.bind
      have chosen := returned.pure
      split at chosen
      next yes =>
        subst yes
        obtain rfl := Option.some.inj chosen
        obtain ⟨t, rfl, at_site⟩ := Option.bind_eq_some_iff.mp found
        unfold Trace.choiceAt? at at_site
        exact .inr ⟨c, ⟨t, rfl, List.mem_of_find?_eq_some at_site⟩, (List.find?_eq_some_iff_append.mp at_site).1,
        rfl, asked⟩
      next => cases chosen

omit [SoundHost σ D R] in
private theorem weighed {d : D} {v : Value} {f : R → Recording κ D R}
    {reaction : Reaction (Recording κ D R) (Option (Recorded κ D R))}
    (yields : Yields (do
      let lp ← Host.logDensity d v
      if Score.isImpossible lp then return .finish none
      else return .deliver (f lp) v : EStateM Failure σ _) reaction) :
    reaction = .finish none ∨ ∃ lp, Yields (Host.logDensity d v : EStateM Failure σ R) lp ∧
      Score.isImpossible lp = false ∧ reaction = .deliver (f lp) v := by
  obtain ⟨lp, asked, returned⟩ := yields.bind
  split at returned
  next => exact .inl returned.pure
  next possible => exact .inr ⟨lp, asked, by simpa using possible, returned.pure⟩

theorem handler_sample_yields {s : Store} {k : κ} {a : Address} {d : D}
    {reaction : Reaction (Recording κ D R) (Option (Recorded κ D R))}
    (yields : Yields ((handler limit old : Handler (EStateM Failure σ) κ D R _ _).sample tape s k a d)
      reaction) :
    reaction = .finish none ∨ ∃ v lp reused fresh, Offered σ (among old) a d v ∧
      Yields (Host.logDensity d v : EStateM Failure σ R) lp ∧ Score.isImpossible lp = false ∧
      reaction = .deliver ({ tape with reused, fresh }.record s k a d v lp) v := by
  simp only [handler] at yields
  split at yields
  next => exact yields.not_fail
  next =>
    obtain ⟨found, looked, yields⟩ := yields.bind
    cases found with
    | some v =>
      rcases weighed yields with stopped | ⟨lp, asked, possible, went⟩
      · exact .inl stopped
      · exact .inr ⟨v, lp, _, _, carriedOver?_offers looked, asked, possible, went⟩
    | none =>
      obtain ⟨v, drawn, yields⟩ := yields.bind
      rcases weighed yields with stopped | ⟨lp, asked, possible, went⟩
      · exact .inl stopped
      · exact .inr ⟨v, lp, _, _, .inl drawn, asked, possible, went⟩

/-- All that a recording returns is what the rules allow. -/
theorem drive_makes {fuel : Nat} {step : Step κ D R} {out : Recorded κ D R}
    (yields : Yields (drive resume (handler limit old) fuel tape step) (some out)) :
    Makes resume limit old tape step out := by
  induction fuel generalizing tape step with
  | zero => exact yields.not_fail
  | succ fuel ih =>
    cases step with
    | exit s v =>
      cases Option.some.inj (Yields.pure yields)
      exact .exit
    | stray v => exact yields.not_fail
    | factor s k a x =>
      obtain ⟨w, w', returned⟩ := yields
      rcases drive_factor_eq_ok returned with ⟨bad, nothing, rfl⟩ | ⟨fine, stop, same, rfl⟩ |
        ⟨fine, running, next, middle, goes, driven⟩
      · cases nothing
      · cases same
        exact .suspend fine stop
      · exact .factor fine running ⟨_, _, goes⟩ (ih ⟨_, _, driven⟩)
    | sample s k a d =>
      obtain ⟨reaction, reacted, rest⟩ := Yields.bind yields
      rcases handler_sample_yields reacted with rfl | ⟨v, lp, reused, fresh, offered, asked, possible, rfl⟩
      · cases rest.pure
      · obtain ⟨next, goes, driven⟩ := rest.bind
        exact .choice offered asked possible goes (ih driven)

end

namespace Makes

variable {resume : Resume (EStateM Failure σ) κ D R} {limit : Option Nat}
  {old : Option (Trace κ D R)} {tape : Recording κ D R} {step : Step κ D R} {out : Recorded κ D R}

/-- Executions end below their limit or suspended exactly at it. -/
theorem ends (makes : Makes resume limit old tape step out) (running : Running limit tape.factors) :
    Ends limit out.trace.factors out.trace.ending := by
  induction makes with
  | exit => exact running
  | suspend fine stop => exact ⟨_, rfl, running, stop⟩
  | factor fine before goes makes ih => exact ih (.inr before)
  | choice offered weighs possible goes makes ih => exact ih running

/-- Every choice that is added is made before the limit. -/
theorem choices_running (makes : Makes resume limit old tape step out)
    (running : Running limit tape.factors) (before : ∀ c ∈ tape.choices, Running limit c.factors) :
    ∀ c ∈ out.trace.choices, Running limit c.factors := by
  induction makes with
  | exit => exact fun c member => before c (List.mem_reverse.mp member)
  | suspend fine stop => exact fun c member => before c (List.mem_reverse.mp member)
  | factor fine going goes makes ih => exact ih (.inr going) before
  | choice offered weighs possible goes makes ih =>
    apply ih running
    intro c member
    rcases List.mem_cons.mp member with rfl | member
    · exact running
    · exact before c member

end Makes

/-- What holds of the choices made, the totals and the rest to be resumed, all along the
executions that the kernel can make. `fair` holds of every choice. Old values are carried over
only where traces are `moving`. -/
structure Invariant (moving : Prop) (resume : Resume (EStateM Failure σ) κ D R) where
  holds : List (Choice κ D R) → Totals R → κ → Store → Value → Prop
  fair : Choice κ D R → Prop
  choose {cs : List (Choice κ D R)} {T : Totals R} {k k' : κ} {s s' : Store} {u v : Value}
      {a : Address} {d : D} {lp : R} :
    holds cs T k s u → Yields (resume k s u) (.sample s' k' a d) →
    Offered σ (fun c => moving ∧ fair c) a d v →
    Yields (Host.logDensity d v : EStateM Failure σ R) lp → Score.isImpossible lp = false →
    fair ⟨a, d, v, lp, k', s', T.score, T.prior, T.factors⟩ ∧
      holds (cs ++ [⟨a, d, v, lp, k', s', T.score, T.prior, T.factors⟩]) (T.choose lp) k' s' v
  absorb {cs : List (Choice κ D R)} {T : Totals R} {k k' : κ} {s s' : Store} {u : Value}
      {a : Address} {x : R} :
    holds cs T k s u → Yields (resume k s u) (.factor s' k' a x) → tolerable x = true →
    holds cs (T.absorb x) k' s' .absent

namespace Invariant

variable {moving : Prop} {resume : Resume (EStateM Failure σ) κ D R} (I : Invariant moving resume)

/-- The invariant holds of some rest that comes to this step. -/
def Leads (cs : List (Choice κ D R)) (T : Totals R) (step : Step κ D R) : Prop :=
  ∃ k s u, I.holds cs T k s u ∧ Yields (resume k s u) step

/-- How a recorded execution ends. -/
def Closes (t : Trace κ D R) : Prop :=
  match t.ending with
  | .done v => I.Leads t.choices t.totals (.exit t.store v)
  | .suspended k => I.holds t.choices t.totals k t.store .absent

/-- Each choice is fair, and made where the invariant held. -/
def Sound (cs : List (Choice κ D R)) : Prop :=
  ∀ before c after, cs = before ++ c :: after →
    I.fair c ∧ I.Leads before c.totals (.sample c.store c.k c.address c.dist)

structure Upholds (t : Trace κ D R) : Prop where
  closes : I.Closes t
  sound : I.Sound t.choices

variable {I} {limit : Option Nat} {old : Option (Trace κ D R)} {tape : Recording κ D R}
  {step : Step κ D R} {out : Recorded κ D R} {cs : List (Choice κ D R)} {c : Choice κ D R}

theorem Sound.nil : I.Sound [] := by
  intro before c after same
  simp at same

theorem Sound.concat (sound : I.Sound cs) (fair : I.fair c)
    (leads : I.Leads cs c.totals (.sample c.store c.k c.address c.dist)) : I.Sound (cs ++ [c]) := by
  intro before b after same
  rcases List.eq_nil_or_concat after with rfl | ⟨others, last, rfl⟩
  · obtain ⟨rfl, last⟩ := List.append_inj' same rfl
    cases last
    exact ⟨fair, leads⟩
  · rw [List.concat_eq_append, ← List.cons_append, ← List.append_assoc] at same
    obtain ⟨rfl, _⟩ := List.append_inj' same rfl
    exact sound before b others rfl

theorem Sound.prefix_of {others : List (Choice κ D R)} (sound : I.Sound (cs ++ others)) : I.Sound cs := by
  rintro before b after rfl
  exact sound before b (after ++ others) (by simp)

theorem Sound.fair (sound : I.Sound cs) (member : c ∈ cs) : I.fair c := by
  obtain ⟨before, after, rfl⟩ := List.append_of_mem member
  exact (sound before c after rfl).1

theorem Closes.leads {t : Trace κ D R} {v : Value} (closes : I.Closes t) (ending : t.ending = .done v) :
    I.Leads t.choices t.totals (.exit t.store v) := by
  unfold Closes at closes
  rwa [ending] at closes

theorem Closes.holds {t : Trace κ D R} {k : κ} (closes : I.Closes t) (ending : t.ending = .suspended k) :
    I.holds t.choices t.totals k t.store .absent := by
  unfold Closes at closes
  rwa [ending] at closes

/-- A choice keeps the invariant, whatever else the tape remembers. -/
private theorem choice_step {s : Store} {k : κ} {a : Address} {d : D} {v : Value} {lp fresh : R}
    {reused : List Address} (leads : I.Leads tape.choices.reverse tape.totals (.sample s k a d))
    (offered : Offered σ (fun c => moving ∧ I.fair c) a d v) (weighs : Yields (Host.logDensity d v : EStateM Failure σ R) lp)
    (possible : Score.isImpossible lp = false) :
    I.fair ⟨a, d, v, lp, k, s, tape.score, tape.prior, tape.factors⟩ ∧
      I.holds ({ tape with reused, fresh }.record s k a d v lp).choices.reverse
        ({ tape with reused, fresh }.record s k a d v lp).totals k s v := by
  obtain ⟨_, _, _, held, goes⟩ := leads
  rw [Recording.record, List.reverse_cons]
  exact I.choose held goes offered weighs possible

theorem closes_of_makes (makes : Makes resume limit old tape step out)
    (leads : I.Leads tape.choices.reverse tape.totals step) (olds : ∀ c, among old c → moving ∧ I.fair c) :
    I.Closes out.trace := by
  induction makes with
  | exit => exact leads
  | suspend fine stop =>
    obtain ⟨_, _, _, held, goes⟩ := leads
    exact I.absorb held goes fine
  | factor fine running goes makes ih =>
    obtain ⟨_, _, _, held, went⟩ := leads
    exact ih ⟨_, _, _, I.absorb held went fine, goes⟩
  | choice offered weighs possible goes makes ih =>
    exact ih ⟨_, _, _, (choice_step leads (offered.mono olds) weighs possible).2, goes⟩

theorem sound_of_makes (makes : Makes resume limit old tape step out)
    (leads : I.Leads tape.choices.reverse tape.totals step) (olds : ∀ c, among old c → moving ∧ I.fair c)
    (sound : I.Sound tape.choices.reverse) : I.Sound out.trace.choices := by
  induction makes with
  | exit => exact sound
  | suspend fine stop => exact sound
  | factor fine running goes makes ih =>
    obtain ⟨_, _, _, held, went⟩ := leads
    exact ih ⟨_, _, _, I.absorb held went fine, goes⟩ sound
  | choice offered weighs possible goes makes ih =>
    obtain ⟨fair, held⟩ := choice_step leads (offered.mono olds) weighs possible
    apply ih ⟨_, _, _, held, goes⟩
    rw [Recording.record, List.reverse_cons]
    exact sound.concat fair leads

end Invariant

section

variable [SoundHost σ D R] {resume : Resume (EStateM Failure σ) κ D R} {limit : Option Nat}
  {fuel : Nat} {entry : κ} {s : Store} {t t' : Trace κ D R}

/-- A complete trace stays as it is, and a suspended one goes on from its rest. -/
theorem extend_makes (yields : Yields (extend resume fuel t limit) (some t')) :
    (∃ v, t.ending = .done v ∧ t' = t) ∨
      ∃ k step out, t.ending = .suspended k ∧ Yields (resume k t.store .absent) step ∧
        Makes resume limit none ⟨t.choices.reverse, t.score, t.prior, t.factors, [], Score.zero⟩ step out ∧
        t' = out.trace := by
  unfold extend at yields
  split at yields
  next v ending =>
    obtain rfl := Option.some.inj yields.pure
    exact .inl ⟨v, ending, rfl⟩
  next k ending =>
    obtain ⟨step, goes, yields⟩ := yields.bind
    obtain ⟨result, driven, yields⟩ := yields.bind
    obtain ⟨out, rfl, same⟩ := Option.map_eq_some_iff.mp yields.pure.symm
    exact .inr ⟨k, step, out, ending, goes, drive_makes driven, same.symm⟩

/-- A proposal keeps the choices before its site, and goes on from there with a drawn value. -/
theorem regenerate_makes {r : R} (yields : Yields (regenerate resume fuel t limit) (some (t', r))) :
    ∃ (before : List (Choice κ D R)) (c : Choice κ D R) (after : List (Choice κ D R)) (v : Value) (lp : R)
      (step : Step κ D R) (out : Recorded κ D R) (reused : List Address) (fresh : R),
      t.choices = before ++ c :: after ∧
      Yields (Host.draw c.dist : EStateM Failure σ Value) v ∧
      Yields (Host.logDensity c.dist v : EStateM Failure σ R) lp ∧ Score.isImpossible lp = false ∧
      Yields (resume c.k c.store v) step ∧
      Makes resume limit (some t)
        (Recording.record ⟨before.reverse, c.score, c.prior, c.factors, reused, fresh⟩
          c.store c.k c.address c.dist v lp) step out ∧
      t' = out.trace := by
  unfold regenerate at yields
  dsimp only at yields
  split at yields
  next => cases yields.pure
  next =>
    obtain ⟨i, _, yields⟩ := yields.bind
    split at yields
    next => cases yields.pure
    next c site =>
      obtain ⟨v, drawn, yields⟩ := yields.bind
      obtain ⟨lp, asked, yields⟩ := yields.bind
      split at yields
      next => cases yields.pure
      next possible =>
        obtain ⟨step, goes, yields⟩ := yields.bind
        obtain ⟨result, driven, yields⟩ := yields.bind
        split at yields
        next => cases yields.pure
        next out =>
          have same := congrArg Prod.fst (Option.some.inj yields.pure)
          obtain ⟨inside, found⟩ := List.getElem?_eq_some_iff.mp site
          have parts : t.choices = t.choices.take i ++ c :: t.choices.drop (i + 1) := by
            rw [← found, List.cons_getElem_drop_succ, List.take_append_drop]
          exact ⟨_, c, _, v, lp, step, out, _, _, parts, drawn, asked, by simpa using possible, goes,
            drive_makes driven, same⟩

omit [SoundHost σ D R] in
/-- A move stays where it is, or accepts a proposal by its ratio. -/
theorem move_cases {accepted : Bool} (yields : Yields (move resume fuel t limit) (t', accepted)) :
    t' = t ∧ accepted = false ∨ accepted = true ∧ ∃ r u,
      Yields (regenerate resume fuel t limit) (some (t', r)) ∧ Score.less u r = true := by
  obtain ⟨proposed, regenerated, yields⟩ := Yields.bind yields
  cases proposed with
  | none =>
    cases yields.pure
    exact .inl ⟨rfl, rfl⟩
  | some proposal =>
    obtain ⟨u, _, yields⟩ := Yields.bind yields
    split at yields
    next below =>
      cases yields.pure
      exact .inr ⟨rfl, _, u, regenerated, below⟩
    next =>
      cases yields.pure
      exact .inl ⟨rfl, rfl⟩

omit [SoundHost σ D R] in
/-- There is nothing to redraw in an execution without choices. -/
theorem move_still (choiceless : t.choices = []) (fuel : Nat) (limit : Option Nat) :
    (move resume fuel t limit : EStateM Failure σ _) = pure (t, false) := by
  unfold move regenerate
  rw [choiceless]
  rfl

/-- The traces that the kernel can make, in any order of its operations and under any limits:
all of them, or only those made without moves. -/
inductive Made (moving : Prop) (resume : Resume (EStateM Failure σ) κ D R) (entry : κ) (s : Store) :
    Trace κ D R → Prop where
  | start : Made moving resume entry s (.start entry s)
  | extend {t t' : Trace κ D R} {fuel : Nat} {limit : Option Nat} (made : Made moving resume entry s t)
      (yields : Yields (extend resume fuel t limit) (some t')) : Made moving resume entry s t'
  | regenerate {t t' : Trace κ D R} {r : R} {fuel : Nat} {limit : Option Nat}
      (made : Made moving resume entry s t) (moves : moving)
      (yields : Yields (regenerate resume fuel t limit) (some (t', r))) : Made moving resume entry s t'

namespace Invariant

variable {moving : Prop} {I : Invariant moving resume}

theorem Upholds.extend (upholds : I.Upholds t)
    (yields : Yields (Kernel.extend resume fuel t limit) (some t')) : I.Upholds t' := by
  rcases extend_makes yields with ⟨v, _, rfl⟩ | ⟨k, step, out, ending, goes, makes, rfl⟩
  · exact upholds
  have leads : I.Leads t.choices.reverse.reverse t.totals step := by
    rw [List.reverse_reverse]
    exact ⟨_, _, _, upholds.closes.holds ending, goes⟩
  have none_old : ∀ c, among (none : Option (Trace κ D R)) c → moving ∧ I.fair c := nofun
  refine ⟨closes_of_makes makes leads none_old, sound_of_makes makes leads none_old ?_⟩
  rw [List.reverse_reverse]
  exact upholds.sound

theorem Upholds.regenerate {r : R} (upholds : I.Upholds t) (moves : moving)
    (yields : Yields (Kernel.regenerate resume fuel t limit) (some (t', r))) : I.Upholds t' := by
  obtain ⟨before, c, after, v, lp, step, out, reused, fresh, parts, drawn, asked, possible, goes,
    makes, rfl⟩ := regenerate_makes yields
  have sound := upholds.sound
  rw [parts] at sound
  obtain ⟨_, site⟩ := sound before c after rfl
  obtain ⟨_, _, _, held, went⟩ := site
  obtain ⟨fair, now⟩ := I.choose held went (.inl drawn) asked possible
  have tape : (Recording.record (⟨before.reverse, c.score, c.prior, c.factors, reused, fresh⟩ :
      Recording κ D R) c.store c.k c.address c.dist v lp).choices.reverse =
        before ++ [c.redrawn v lp] := by
    rw [Recording.record, List.reverse_cons, List.reverse_reverse]
    rfl
  have olds : ∀ b, among (some t) b → moving ∧ I.fair b := by
    rintro b ⟨_, same, member⟩
    cases same
    exact ⟨moves, upholds.sound.fair member⟩
  have leads : I.Leads _ (c.totals.choose lp) step := ⟨_, _, _, now, goes⟩
  refine ⟨closes_of_makes makes ?_ olds, sound_of_makes makes ?_ olds ?_⟩
  · rw [tape]
    exact leads
  · rw [tape]
    exact leads
  · rw [tape]
    exact sound.prefix_of.concat fair ⟨_, _, _, held, went⟩

/-- What holds at the start holds of every trace that the kernel makes. -/
theorem upholds_made (begins : I.holds [] .zero entry s .absent) (made : Made moving resume entry s t) :
    I.Upholds t := by
  induction made with
  | start => exact ⟨begins, Sound.nil⟩
  | extend _ yields ih => exact ih.extend yields
  | regenerate _ moves yields ih => exact ih.regenerate moves yields

end Invariant

/-- The state that is found is a simulation whose score is above the impossible one. -/
theorem findStart_yields {attempts : Given Nat}
    (yields : Yields (findStart resume fuel entry s limit attempts) t) :
    Yields (simulate resume fuel entry s limit) (some t) ∧ Score.less Score.impossible t.score = true := by
  unfold findStart at yields
  generalize 1 = attempt at yields
  generalize attempts.val = remaining at yields
  induction remaining generalizing attempt with
  | zero => exact yields.not_fail
  | succ remaining ih =>
    obtain ⟨result, simulated, yields⟩ := Yields.bind yields
    cases result with
    | none => exact ih _ yields
    | some t₀ =>
      dsimp only at yields
      split at yields
      next above =>
        obtain ⟨_, _, yields⟩ := yields.bind
        rw [yields.pure]
        exact ⟨simulated, above⟩
      next => exact ih _ yields

namespace Made

variable {moving : Prop}

omit [SoundHost σ D R] in
theorem simulate (yields : Yields (Kernel.simulate resume fuel entry s limit) (some t)) :
    Made moving resume entry s t := Made.start.extend yields

theorem findStart {attempts : Given Nat}
    (yields : Yields (Kernel.findStart resume fuel entry s limit attempts) t) :
    Made moving resume entry s t :=
  .simulate (findStart_yields yields).1

omit [SoundHost σ D R] in
theorem move {accepted : Bool} (made : Made moving resume entry s t) (moves : moving)
    (yields : Yields (Kernel.move resume fuel t limit) (t', accepted)) : Made moving resume entry s t' := by
  rcases move_cases yields with ⟨rfl, _⟩ | ⟨_, r, _, regenerated, _⟩
  · exact made
  · exact made.regenerate moves regenerated

end Made

end

end Kernel

end ProbCore
