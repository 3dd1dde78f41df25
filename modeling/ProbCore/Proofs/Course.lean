import ProbCore.Proofs.KernelRecording

/-! How the kernel goes through an execution of any program, from one state of its host to
another. At each choice it decides whether an old value is carried over or a new one is drawn.
The course of an execution lists these decisions, also where the execution is abandoned, and
what the kernel records can be read off from them. -/

namespace ProbCore.Kernel

/-- A choice with the place in the old trace that its value is carried over from. A value from
nowhere is drawn. -/
structure Decision (κ D R : Type) where
  choice : Choice κ D R
  source : Option Nat

/-- How an execution ends for the kernel: recorded, or abandoned at a choice or a factor. -/
inductive Verdict (κ D R : Type) where
  | recorded (out : Recorded κ D R)
  | atChoice (refused : Decision κ D R)
  | atFactor (x : R)

section

variable {κ D R : Type}

def Verdict.outcome : Verdict κ D R → Option (Recorded κ D R)
  | .recorded out => some out
  | .atChoice _ | .atFactor _ => none

/-- The decision at which an execution is abandoned. -/
def Verdict.refused : Verdict κ D R → List (Decision κ D R)
  | .atChoice d => [d]
  | .recorded _ | .atFactor _ => []

/-- The addresses whose old values these decisions spend, the latest first. -/
def spent (ds : List (Decision κ D R)) : List Address :=
  ((ds.filter (·.source.isSome)).map (·.choice.address)).reverse

/-- The log densities of the values that these decisions draw. -/
def drawnDensities (ds : List (Decision κ D R)) : List R :=
  (ds.filter (·.source.isNone)).map (·.choice.logDensity)

def Recording.entry (tape : Recording κ D R) (s : Store) (k : κ) (a : Address) (d : D)
    (v : Value) (lp : R) : Choice κ D R :=
  ⟨a, d, v, lp, k, s, tape.score, tape.prior, tape.factors⟩

variable [Score R]

/-- The tape remembers an old value as spent, and a drawn one by its density. -/
def Recording.settle (tape : Recording κ D R) (a : Address) (lp : R) : Option Nat → Recording κ D R
  | some _ => tape.keep a
  | none => tape.draw lp

theorem Recording.settle_record_choices (tape : Recording κ D R) (s : Store) (k : κ) (a : Address)
    (d : D) (v : Value) (lp : R) (source : Option Nat) :
    ((tape.settle a lp source).record s k a d v lp).choices =
      tape.entry s k a d v lp :: tape.choices := by
  cases source <;> rfl

theorem Recording.settle_record_reused (tape : Recording κ D R) (s : Store) (k : κ) (a : Address)
    (d : D) (v : Value) (lp : R) (source : Option Nat) :
    ((tape.settle a lp source).record s k a d v lp).reused =
      spent [⟨tape.entry s k a d v lp, source⟩] ++ tape.reused := by
  cases source <;> rfl

theorem Recording.settle_record_fresh (tape : Recording κ D R) (s : Store) (k : κ) (a : Address)
    (d : D) (v : Value) (lp : R) (source : Option Nat) :
    ((tape.settle a lp source).record s k a d v lp).fresh =
      (drawnDensities [⟨tape.entry s k a d v lp, source⟩]).foldl (· + ·) tape.fresh := by
  cases source <;> rfl

omit [Score R]

theorem spent_append (ds others : List (Decision κ D R)) :
    spent (ds ++ others) = spent others ++ spent ds := by
  simp [spent]

theorem drawnDensities_append (ds others : List (Decision κ D R)) :
    drawnDensities (ds ++ others) = drawnDensities ds ++ drawnDensities others := by
  simp [drawnDensities]

theorem mem_spent {ds : List (Decision κ D R)} {a : Address} :
    a ∈ spent ds ↔ ∃ d ∈ ds, d.source.isSome = true ∧ d.choice.address = a := by
  simp [spent, and_assoc]

end

variable {σ κ D R : Type} [Host (EStateM Failure σ) D R] [LawfulHost σ D R] [Score R]

/-- How a choice gets its value: the first old choice at its address gives its own, if that is
not spent and acceptable here; or the host draws one. -/
inductive Obtains (old : Option (Trace κ D R)) (reused : List Address) (a : Address) (d : D) :
    σ → Option Nat → Value → σ → Prop where
  | kept {w t j b} (before : old = some t) (first : t.choiceAt? a = some b)
      (place : t.choices[j]? = some b) (unspent : reused.contains a = false)
      (accepted : (LawfulHost.densities σ).accepts d b.value = .ok true) :
      Obtains old reused a d w (some j) b.value w
  | drawn {w w' v} (other : carried (LawfulHost.densities σ) old reused a d = .ok none)
      (drew : (Host.draw d : EStateM Failure σ Value) w = .ok v w') :
      Obtains old reused a d w none v w'

/-- The course of an execution from a step on. -/
inductive Course (resume : Resume (EStateM Failure σ) κ D R) (limit : Option Nat)
    (old : Option (Trace κ D R)) :
    Recording κ D R → Step κ D R → σ → List (Decision κ D R) → Verdict κ D R → σ → Prop where
  | exit {tape s v w} :
      Course resume limit old tape (.exit s v) w [] (.recorded (tape.finish s (.done v))) w
  | suspend {tape s k a x w} (fine : tolerable x = true) (stop : stops limit (tape.factors + 1) = true) :
      Course resume limit old tape (.factor s k a x) w []
        (.recorded ((tape.absorb x).finish s (.suspended k))) w
  | refuse {tape s k a x w} (bad : tolerable x = false) :
      Course resume limit old tape (.factor s k a x) w [] (.atFactor x) w
  | factor {tape s k a x step w middle ds verdict w'} (fine : tolerable x = true)
      (running : stops limit (tape.factors + 1) = false)
      (goes : resume k s .absent w = .ok step middle)
      (rest : Course resume limit old (tape.absorb x) step middle ds verdict w') :
      Course resume limit old tape (.factor s k a x) w ds verdict w'
  | choice {tape s k a d v lp source step w drew middle ds verdict w'} (hashable : a.isHashable = true)
      (obtains : Obtains old tape.reused a d w source v drew)
      (weighs : (LawfulHost.densities σ).logDensity d v = .ok lp)
      (possible : Score.isImpossible lp = false) (goes : resume k s v drew = .ok step middle)
      (rest : Course resume limit old ((tape.settle a lp source).record s k a d v lp) step middle ds
        verdict w') :
      Course resume limit old tape (.sample s k a d) w (⟨tape.entry s k a d v lp, source⟩ :: ds)
        verdict w'
  | abandon {tape s k a d v lp source w w'} (hashable : a.isHashable = true)
      (obtains : Obtains old tape.reused a d w source v w')
      (weighs : (LawfulHost.densities σ).logDensity d v = .ok lp)
      (impossible : Score.isImpossible lp = true) :
      Course resume limit old tape (.sample s k a d) w []
        (.atChoice ⟨tape.entry s k a d v lp, source⟩) w'

theorem Obtains.from_place {t : Trace κ D R} {reused : List Address} {a : Address} {d : D} {v : Value}
    {j : Nat} {w w' : σ} (obtains : Obtains (some t) reused a d w (some j) v w') :
    ∃ b, t.choices[j]? = some b ∧ t.choiceAt? a = some b ∧ (b.address == a) = true ∧ b.value = v ∧
      reused.contains a = false ∧ (LawfulHost.densities σ).accepts d v = .ok true := by
  cases obtains with
  | kept before first place unspent accepted =>
    cases before
    have at_address := List.find?_some first
    exact ⟨_, place, first, at_address, rfl, unspent, accepted⟩

theorem Obtains.carries {old : Option (Trace κ D R)} {reused : List Address} {a : Address} {d : D}
    {j : Nat} {v : Value} {w w' : σ} (obtains : Obtains old reused a d w (some j) v w') :
    carried (LawfulHost.densities σ) old reused a d = .ok (some v) ∧ w = w' := by
  cases obtains with
  | kept before first place unspent accepted =>
    subst before
    simp [carried, first, unspent, accepted, bind, Except.bind, pure, Except.pure]

theorem Obtains.ready {old : Option (Trace κ D R)} {reused : List Address} {a : Address} {d : D}
    {source : Option Nat} {v : Value} {w w' : σ} (obtains : Obtains old reused a d w source v w')
    (ready : LawfulHost.ready w) : LawfulHost.ready w' := by
  cases obtains with
  | kept => exact ready
  | drawn other drew => exact LawfulHost.draw_ready ready drew

theorem carried_keeps {old : Option (Trace κ D R)} {reused : List Address} {a : Address} {d : D}
    {v : Value} {w : σ} (carries : carried (LawfulHost.densities σ) old reused a d = .ok (some v)) :
    ∃ j, Obtains old reused a d w (some j) v w := by
  unfold carried at carries
  split at carries
  next => cases carries
  next b found =>
    by_cases unspent : reused.contains a = true
    · rw [if_pos unspent] at carries
      cases carries
    · rw [if_neg unspent] at carries
      cases answer : (LawfulHost.densities σ).accepts d b.value with
      | error e =>
        rw [answer] at carries
        cases carries
      | ok accepted =>
        rw [answer] at carries
        cases accepted with
        | false => cases carries
        | true =>
          cases carries
          obtain ⟨t, rfl, first⟩ := Option.bind_eq_some_iff.mp found
          obtain ⟨j, inside, same⟩ := List.getElem_of_mem (List.mem_of_find?_eq_some first)
          have place : t.choices[j]? = some b := List.getElem?_eq_some_iff.mpr ⟨inside, same⟩
          exact ⟨j, .kept rfl first place (by simpa using unspent) answer⟩

/-- A choice obtains a value, which is recorded unless its density is impossible. -/
theorem handler_sample_obtains {limit : Option Nat} {old : Option (Trace κ D R)}
    {tape : Recording κ D R} {s : Store} {k : κ} {a : Address} {d : D}
    {reaction : Reaction (Recording κ D R) (Option (Recorded κ D R))} {w w' : σ}
    (reacted : (handler limit old : Handler (EStateM Failure σ) κ D R _ _).sample tape s k a d w =
      .ok reaction w') :
    a.isHashable = true ∧ ∃ source v lp, Obtains old tape.reused a d w source v w' ∧
      (LawfulHost.densities σ).logDensity d v = .ok lp ∧
      reaction = if Score.isImpossible lp then .finish none
        else .deliver ((tape.settle a lp source).record s k a d v lp) v := by
  cases hashable : a.isHashable with
  | false =>
    simp only [handler, hashable] at reacted
    exact absurd reacted fail_ne_ok
  | true =>
    refine ⟨rfl, ?_⟩
    rw [handler_sample limit old tape s k d hashable] at reacted
    obtain ⟨found, middle, looked, reacted⟩ := bind_eq_ok.mp reacted
    obtain ⟨carries, rfl⟩ := lift_eq_ok.mp looked
    cases found with
    | some v =>
      obtain ⟨weighs, rfl⟩ := lift_eq_ok.mp reacted
      obtain ⟨lp, known, same⟩ := weigh_eq_ok weighs
      obtain ⟨j, obtains⟩ := carried_keeps carries
      exact ⟨some j, v, lp, obtains, known, same⟩
    | none =>
      obtain ⟨v, last, drew, reacted⟩ := bind_eq_ok.mp reacted
      obtain ⟨weighs, rfl⟩ := lift_eq_ok.mp reacted
      obtain ⟨lp, known, same⟩ := weigh_eq_ok weighs
      exact ⟨none, v, lp, .drawn carries drew, known, same⟩

variable {resume : Resume (EStateM Failure σ) κ D R} {limit : Option Nat}
  {old : Option (Trace κ D R)} {tape : Recording κ D R} {step : Step κ D R} {w w' : σ}

/-- Every execution under the kernel that comes to an outcome has a course. -/
theorem drive_course {fuel : Nat} {outcome : Option (Recorded κ D R)}
    (returned : drive resume (handler limit old) fuel tape step w = .ok outcome w') :
    ∃ ds verdict, Course resume limit old tape step w ds verdict w' ∧ outcome = verdict.outcome := by
  induction fuel generalizing tape step w with
  | zero => exact absurd returned fail_ne_ok
  | succ fuel ih =>
    cases step with
    | exit s v =>
      obtain ⟨rfl, rfl⟩ := pure_eq_ok.mp returned
      exact ⟨_, _, .exit, rfl⟩
    | stray v => exact absurd returned fail_ne_ok
    | factor s k a x =>
      rcases drive_factor_eq_ok returned with ⟨bad, rfl, rfl⟩ | ⟨fine, stop, rfl, rfl⟩ |
        ⟨fine, running, next, middle, goes, driven⟩
      · exact ⟨_, _, .refuse bad, rfl⟩
      · exact ⟨_, _, .suspend fine stop, rfl⟩
      · obtain ⟨ds, verdict, course, same⟩ := ih driven
        exact ⟨ds, verdict, .factor fine running goes course, same⟩
    | sample s k a d =>
      obtain ⟨reaction, drew, reacted, rest⟩ := bind_eq_ok.mp returned
      obtain ⟨hashable, source, v, lp, obtains, weighs, rfl⟩ := handler_sample_obtains reacted
      cases possible : Score.isImpossible lp with
      | true =>
        rw [possible] at rest
        obtain ⟨rfl, rfl⟩ := pure_eq_ok.mp rest
        exact ⟨_, _, .abandon hashable obtains weighs possible, rfl⟩
      | false =>
        rw [possible] at rest
        obtain ⟨next, _, goes, driven⟩ := bind_eq_ok.mp rest
        obtain ⟨ds, verdict, course, same⟩ := ih driven
        exact ⟨_, verdict, .choice hashable obtains weighs possible goes course, same⟩

namespace Course

variable {ds : List (Decision κ D R)} {verdict : Verdict κ D R} {out : Recorded κ D R}

/-- A recording has the choices decided after those on the tape, and remembers the values carried
over by their addresses and the values drawn by their densities. -/
theorem recorded_eq (course : Course resume limit old tape step w ds (.recorded out) w') :
    out.trace.choices = tape.choices.reverse ++ ds.map (·.choice) ∧
      out.reused = spent ds ++ tape.reused ∧
      out.fresh = (drawnDensities ds).foldl (· + ·) tape.fresh := by
  generalize same : Verdict.recorded out = verdict at course
  induction course with
  | exit | suspend =>
    cases same
    simp [Recording.finish, Recording.snapshot, Recording.absorb, spent, drawnDensities]
  | refuse | abandon => cases same
  | factor fine running goes rest ih => exact ih same
  | choice hashable obtains weighs possible goes rest ih =>
    obtain ⟨choices, reused, fresh⟩ := ih same
    refine ⟨?_, ?_, ?_⟩
    · rw [choices, Recording.settle_record_choices, List.reverse_cons, List.append_assoc]
      rfl
    · rw [reused, Recording.settle_record_reused, ← List.append_assoc, ← spent_append]
      rfl
    · rw [fresh, Recording.settle_record_fresh, ← List.foldl_append, ← drawnDensities_append]
      rfl

/-- Each decision, the last included if the execution is abandoned there, was made with the old
values spent that were so on the tape or by the decisions before it. -/
theorem decided (course : Course resume limit old tape step w ds verdict w')
    {before after : List (Decision κ D R)} {d : Decision κ D R}
    (parts : ds ++ verdict.refused = before ++ d :: after) :
    d.choice.address.isHashable = true ∧
      (∃ w w' : σ, Obtains old (spent before ++ tape.reused) d.choice.address d.choice.dist w d.source
        d.choice.value w') ∧
      (LawfulHost.densities σ).logDensity d.choice.dist d.choice.value = .ok d.choice.logDensity := by
  induction course generalizing before with
  | exit | suspend | refuse => simp [Verdict.refused] at parts
  | factor fine running goes rest ih => exact ih parts
  | abandon hashable obtains weighs impossible =>
    cases before with
    | nil =>
      cases parts
      exact ⟨hashable, ⟨_, _, obtains⟩, weighs⟩
    | cons => simp [Verdict.refused] at parts
  | choice hashable obtains weighs possible goes rest ih =>
    cases before with
    | nil =>
      cases parts
      exact ⟨hashable, ⟨_, _, obtains⟩, weighs⟩
    | cons first before =>
      obtain ⟨rfl, others⟩ := List.cons.inj parts
      have later := ih others
      rwa [Recording.settle_record_reused, ← List.append_assoc, ← spent_append] at later

theorem hashable (course : Course resume limit old tape step w ds verdict w') :
    ∀ d ∈ ds, d.choice.address.isHashable = true := by
  intro d member
  obtain ⟨before, after, rfl⟩ := List.append_of_mem member
  exact (course.decided (List.append_assoc ..)).1

end Course

/-- How the host's state changes while values are drawn, with what is known of such values. -/
structure Trailing (resume : Resume (EStateM Failure σ) κ D R) (inside : κ → Prop)
    (drawable : D → Value → Prop) (trail : σ → List Value → σ → Prop) : Prop where
  rest (w : σ) : trail w [] w
  resume {k : κ} {s : Store} {v : Value} {step : Step κ D R} {w w' w'' : σ} {draws : List Value} :
    inside k → LawfulHost.ready w → resume k s v w = .ok step w' → trail w' draws w'' →
      trail w draws w''
  draw {d : D} {v : Value} {w w' : σ} : LawfulHost.ready w →
    (Host.draw d : EStateM Failure σ Value) w = .ok v w' →
      drawable d v ∧ ∀ draws w'', trail w' draws w'' → trail w (v :: draws) w''

omit [Score R] in
theorem Trailing.always (resume : Resume (EStateM Failure σ) κ D R) (inside : κ → Prop) :
    Trailing resume inside (fun _ _ => True) (fun _ _ _ => True) where
  rest _ := trivial
  resume _ _ _ _ := trivial
  draw _ _ := ⟨trivial, fun _ _ _ => trivial⟩

variable {P : PlainProgram κ D R} {inside : κ → Prop} {drawable : D → Value → Prop}
  {trail : σ → List Value → σ → Prop}

/-- A course of what performs a program is an execution of the program, with the values that the
course draws. -/
theorem Course.records (performs : Performs resume P inside)
    (trailing : Trailing resume inside drawable trail) {ds : List (Decision κ D R)}
    {verdict : Verdict κ D R} (held : ∀ k, step.rest? = some k → inside k)
    (ready : LawfulHost.ready w) (course : Course resume limit old tape step w ds verdict w') :
    LawfulHost.ready w' ∧ ∀ out, verdict = .recorded out → ∃ draws, trail w draws w' ∧
      Records (LawfulHost.densities σ) P drawable limit old tape step draws out := by
  induction course with
  | exit =>
    refine ⟨ready, fun out same => ?_⟩
    cases same
    exact ⟨[], trailing.rest _, .exit⟩
  | suspend fine stop =>
    refine ⟨ready, fun out same => ?_⟩
    cases same
    exact ⟨[], trailing.rest _, .suspend fine stop⟩
  | refuse => exact ⟨ready, nofun⟩
  | factor fine running goes rest ih =>
    have member := held _ rfl
    obtain ⟨known, ready'⟩ := performs.next_eq member ready goes
    obtain ⟨kept, recorded⟩ := ih (fun _ => performs.closed member known) ready'
    refine ⟨kept, fun out same => ?_⟩
    obtain ⟨draws, trailed, records⟩ := recorded out same
    exact ⟨draws, trailing.resume member ready goes trailed, .factor fine running known records⟩
  | @choice tape s k a d v lp source step w drew middle ds verdict w' hashable obtains weighs possible
      goes rest ih =>
    have member := held _ rfl
    have ready' := obtains.ready ready
    obtain ⟨known, ready''⟩ := performs.next_eq member ready' goes
    obtain ⟨kept, recorded⟩ := ih (fun _ => performs.closed member known) ready''
    refine ⟨kept, fun out same => ?_⟩
    obtain ⟨draws, trailed, records⟩ := recorded out same
    have trailed := trailing.resume member ready' goes trailed
    -- A kept value leaves the host as it was, and a drawn one is the next of the draws.
    cases source with
    | some j =>
      obtain ⟨carries, rfl⟩ := obtains.carries
      exact ⟨draws, trailed, .kept hashable carries weighs possible known records⟩
    | none =>
      cases obtains with
      | drawn other drew =>
        obtain ⟨fits, trails⟩ := trailing.draw ready drew
        exact ⟨v :: draws, trails _ _ trailed, .drawn hashable other fits weighs possible known records⟩
  | abandon hashable obtains => exact ⟨obtains.ready ready, nofun⟩

/-- What the kernel returns is a recording of the program, or nothing. -/
theorem drive_records (performs : Performs resume P inside)
    (trailing : Trailing resume inside drawable trail) {fuel : Nat} {outcome : Option (Recorded κ D R)}
    (held : ∀ k, step.rest? = some k → inside k) (ready : LawfulHost.ready w)
    (returned : drive resume (handler limit old) fuel tape step w = .ok outcome w') :
    LawfulHost.ready w' ∧ ∀ out, outcome = some out → ∃ draws, trail w draws w' ∧
      Records (LawfulHost.densities σ) P drawable limit old tape step draws out := by
  obtain ⟨ds, verdict, course, rfl⟩ := drive_course returned
  obtain ⟨kept, recorded⟩ := course.records performs trailing held ready
  refine ⟨kept, fun out same => recorded out ?_⟩
  cases verdict with
  | recorded other =>
    cases same
    rfl
  | atChoice | atFactor => cases same

end ProbCore.Kernel
