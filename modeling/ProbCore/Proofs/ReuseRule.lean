import ProbCore.Proofs.CarefulScript
import ProbCore.Proofs.RatioAccounting
import ProbCore.Proofs.Reversibility
import ProbCore.Proofs.ScoreBounds

/-! Which values a proposal keeps, in programs whose executions come to no address twice. A later
choice keeps the old value at its address if that has a finite density here and is listed, and is
drawn otherwise. There is one lapse: where values are listed, a listed one is kept whatever its
density, and an impossible one abandons the proposal. -/

namespace ProbCore

open Kernel

section

variable {D R : Type} [Score R]

/-- A value that a choice may keep: of finite log density, and listed where values are. -/
def Fits (laws : Densities D R) (d : D) (v : Value) : Prop :=
  (∃ lp, laws.logDensity d v = .ok lp ∧ Score.isFinite lp = true) ∧
    (laws.enumerable d = true → ∃ vs, laws.support d = .ok vs ∧ vs.contains v = true)

/-- A listed value without a finite log density. -/
def ListedOnly (laws : Densities D R) (d : D) (v : Value) : Prop :=
  laws.enumerable d = true ∧ (∃ vs, laws.support d = .ok vs ∧ vs.contains v = true) ∧
    ∃ lp, laws.logDensity d v = .ok lp ∧ Score.isFinite lp = false

variable {laws : Densities D R} {d : D} {v : Value}

/-- What is accepted fits, or is only listed. -/
theorem fits_of_accepts {lp : R} (accepted : laws.accepts d v = .ok true)
    (weighs : laws.logDensity d v = .ok lp) : Fits laws d v ∨ ListedOnly laws d v := by
  unfold Densities.accepts at accepted
  by_cases enumerable : laws.enumerable d = true
  · rw [if_pos enumerable] at accepted
    cases support : laws.support d with
    | error e =>
      rw [support] at accepted
      cases accepted
    | ok vs =>
      rw [support] at accepted
      have listed : vs.contains v = true := Except.ok.inj accepted
      cases finite : Score.isFinite lp with
      | true => exact .inl ⟨⟨lp, weighs, finite⟩, fun _ => ⟨vs, support, listed⟩⟩
      | false => exact .inr ⟨enumerable, ⟨vs, support, listed⟩, lp, weighs, finite⟩
  · rw [if_neg enumerable, weighs] at accepted
    exact .inl ⟨⟨lp, weighs, Except.ok.inj accepted⟩, fun yes => absurd yes enumerable⟩

theorem Fits.accepts (fits : Fits laws d v) : laws.accepts d v = .ok true := by
  obtain ⟨⟨lp, weighs, finite⟩, listed⟩ := fits
  unfold Densities.accepts
  by_cases enumerable : laws.enumerable d = true
  · obtain ⟨vs, support, member⟩ := listed enumerable
    rw [if_pos enumerable, support]
    exact congrArg Except.ok member
  · rw [if_neg enumerable, weighs]
    exact congrArg Except.ok finite

end

section

variable {σ κ D R : Type} [Host (EStateM Failure σ) D R] [Score R]

/-- Values that executions give to choices: drawn, or such as could have been, and with mass. -/
def Reasonable (σ : Type) {D R : Type} [Host (EStateM Failure σ) D R] [Score R] (d : D) (v : Value) : Prop :=
  Choosable σ d v ∧ HasMass σ d v

/-- No execution comes to a choice at an address where it has made one before. -/
def AddressesApart (resume : Resume (EStateM Failure σ) κ D R) (entry : κ) (start : Store) : Prop :=
  ∀ cs xs s k a d, Arrives resume (Reasonable σ) entry start cs xs (.sample s k a d) → Tolerated xs →
    ∀ c ∈ cs, (c.1 == a) = false

variable [LawfulHost σ D R] {resume : Resume (EStateM Failure σ) κ D R} {entry : κ} {start : Store}
  {limit : Option Nat} {t : Trace κ D R} {i : Nat} {w w' : σ} {ds : List (Decision κ D R)}
  {verdict : Verdict κ D R}

/-- A later choice that obeys the rule: it keeps the old value at its address after the site if
that fits, and is drawn if there is none or it does not fit. -/
inductive Obeys (σ : Type) [Host (EStateM Failure σ) D R] [LawfulHost σ D R] (t : Trace κ D R)
    (i : Nat) (d : Decision κ D R) : Prop where
  | keeps {j b} (kept : d.source = some j) (later : i < j) (place : t.choices[j]? = some b)
      (same : (b.address == d.choice.address) = true) (value : d.choice.value = b.value)
      (fits : Fits (LawfulHost.densities σ) d.choice.dist b.value)
  | draws (fresh : d.source = none)
      (drawn : Yields (Host.draw d.choice.dist : EStateM Failure σ Value) d.choice.value)
      (others : ∀ b ∈ t.after i, (b.address == d.choice.address) = true →
        ¬ Fits (LawfulHost.densities σ) d.choice.dist b.value)

/-- A later choice that keeps an old value which is only listed. -/
def Lapses (σ : Type) [Host (EStateM Failure σ) D R] [LawfulHost σ D R] (t : Trace κ D R) (i : Nat)
    (d : Decision κ D R) : Prop :=
  ∃ j b, d.source = some j ∧ i < j ∧ t.choices[j]? = some b ∧ (b.address == d.choice.address) = true ∧
    d.choice.value = b.value ∧ ListedOnly (LawfulHost.densities σ) d.choice.dist b.value

namespace Kernel

omit [LawfulHost σ D R] in
theorem chooses_reasonable : Chooses True resume (Reasonable σ) entry start :=
  fun _ _ _ _ _ _ _ _ offered mass => ⟨offered.choosable, mass⟩

theorem Obtains.choosable {old : Option (Trace κ D R)} {reused : List Address} {a : Address} {d : D}
    {v : Value} {source : Option Nat} (obtains : Obtains old reused a d w source v w') :
    Choosable σ d v := by
  cases obtains with
  | kept before first place unspent accepted =>
    refine .inr ⟨w, w, ?_⟩
    rw [accepts_eq]
    exact lift_eq_ok.mpr ⟨accepted, rfl⟩
  | drawn other drew => exact .inl ⟨_, _, drew⟩

/-- Executions come to every choice of the course, with those of the tape and those decided before. -/
theorem Course.arrives {old : Option (Trace κ D R)} {tape : Recording κ D R} {step : Step κ D R}
    (course : Course resume limit old tape step w ds verdict w')
    (reached : ∃ xs, Arrives resume (Reasonable σ) entry start (tape.choices.reverse.map Choice.told) xs step ∧
      Tolerated xs)
    {before after : List (Decision κ D R)} {d : Decision κ D R}
    (parts : ds ++ verdict.refused = before ++ d :: after) :
    ∃ xs, Arrives resume (Reasonable σ) entry start
      ((tape.choices.reverse ++ before.map (·.choice)).map Choice.told) xs
      (.sample d.choice.store d.choice.k d.choice.address d.choice.dist) ∧ Tolerated xs := by
  induction course generalizing before with
  | exit | suspend | refuse => simp [Verdict.refused] at parts
  | factor fine running goes rest ih =>
    obtain ⟨xs, ⟨k, s, u, reaches, comes⟩, tolerated⟩ := reached
    exact ih ⟨_, ⟨_, _, _, reaches.absorb comes, ⟨_, _, goes⟩⟩, tolerated.concat fine⟩ parts
  | abandon hashable obtains weighs impossible =>
    cases before with
    | nil =>
      cases parts
      rw [List.map_nil, List.append_nil]
      exact reached
    | cons => simp [Verdict.refused] at parts
  | choice hashable obtains weighs possible goes rest ih =>
    cases before with
    | nil =>
      cases parts
      rw [List.map_nil, List.append_nil]
      exact reached
    | cons first before =>
      obtain ⟨rfl, others⟩ := List.cons.inj parts
      obtain ⟨xs, ⟨k, s, u, reaches, comes⟩, tolerated⟩ := reached
      have mass : HasMass σ _ _ := ⟨_, ⟨w, w, logDensity_eq_ok.mpr ⟨weighs, rfl⟩⟩, possible⟩
      have chosen := reaches.choose comes ⟨obtains.choosable, mass⟩
      have later := ih (by
        rw [Recording.settle_record_choices, List.reverse_cons, List.map_append]
        exact ⟨xs, ⟨_, _, _, chosen, ⟨_, _, goes⟩⟩, tolerated⟩) others
      rwa [Recording.settle_record_choices, List.reverse_cons, List.append_assoc] at later

section

variable [SoundHost σ D R]

omit [LawfulHost σ D R] in
/-- Executions come to the choices of a trace. -/
theorem Made.arrives (made : Made True resume entry start t) {before after : List (Choice κ D R)}
    {c : Choice κ D R} (parts : t.choices = before ++ c :: after) :
    ∃ k s u xs, Reaches resume (Reasonable σ) entry start (before.map Choice.told) xs k s u ∧
      Tolerated xs ∧ Yields (resume k s u) (.sample c.store c.k c.address c.dist) := by
  have upholds := (tolerant chooses_reasonable).upholds_made ⟨[], .start, nofun⟩ made
  obtain ⟨_, k, s, u, ⟨xs, reaches, tolerated⟩, goes⟩ := upholds.sound before c after parts
  exact ⟨k, s, u, xs, reaches, tolerated, goes⟩

variable (apart : AddressesApart resume entry start)

include apart

theorem Made.placed (made : Made True resume entry start t) : Placed t.choices := by
  refine ⟨pairwise_of_parts fun before c after parts b earlier => ?_, made.hashable⟩
  obtain ⟨k, s, u, xs, reaches, tolerated, goes⟩ := made.arrives parts
  exact apart _ xs _ _ _ _ ⟨k, s, u, reaches, goes⟩ tolerated b.told (List.mem_map_of_mem earlier)

/-- After a redrawn choice, executions come to no address again: not to one up to the site, and not to
one at which a choice was made since. -/
theorem Course.elsewhere (made : Made True resume entry start t) {c : Choice κ D R} {v : Value} {lp : R}
    {step : Step κ D R} {middle : σ} (site : t.choices[i]? = some c) (reasonable : Reasonable σ c.dist v)
    (goes : resume c.k c.store v middle = .ok step w)
    (course : Course resume limit (some t) (siteTape t i c v lp) step w ds verdict w')
    {before after : List (Decision κ D R)} {d : Decision κ D R}
    (parts : ds ++ verdict.refused = before ++ d :: after) :
    (∀ b ∈ t.choices.take (i + 1), (b.address == d.choice.address) = false) ∧
      ∀ e ∈ before, (e.choice.address == d.choice.address) = false := by
  have reached : ∃ xs, Arrives resume (Reasonable σ) entry start
      ((siteTape t i c v lp).choices.reverse.map Choice.told) xs step ∧ Tolerated xs := by
    obtain ⟨k, s, u, xs, reaches, tolerated, comes⟩ := made.arrives (parts_at site)
    have taken := siteTape_choices t i c v lp []
    rw [List.append_nil] at taken
    rw [taken, List.map_append]
    exact ⟨xs, ⟨_, _, _, reaches.choose comes reasonable, ⟨_, _, goes⟩⟩, tolerated⟩
  obtain ⟨xs, arrives, tolerated⟩ := course.arrives reached parts
  have others := apart _ xs _ _ _ _ arrives tolerated
  rw [siteTape_choices, List.forall_mem_map, List.forall_mem_append, List.forall_mem_cons,
    List.forall_mem_map] at others
  obtain ⟨earlier, at_site, decided⟩ := others
  refine ⟨fun b listed => ?_, decided⟩
  rw [List.take_add_one, site, Option.toList_some, List.mem_append, List.mem_singleton] at listed
  rcases listed with listed | rfl
  · exact earlier b listed
  · exact at_site

omit apart [SoundHost σ D R] in
/-- No old value is spent for an address that comes for the first time. -/
theorem Course.unspent {old : Option (Trace κ D R)} {tape : Recording κ D R} {step : Step κ D R}
    (course : Course resume limit old tape step w ds verdict w')
    (hashable : ∀ b ∈ t.choices, b.address.isHashable = true) {before after : List (Decision κ D R)}
    {d : Decision κ D R} (parts : ds ++ verdict.refused = before ++ d :: after)
    (new : ∀ b ∈ t.choices.take (i + 1), (b.address == d.choice.address) = false)
    (decided : ∀ e ∈ before, (e.choice.address == d.choice.address) = false) :
    (spent before ++ (t.choices.take (i + 1)).map (·.address)).contains d.choice.address = false := by
  have plain := (course.decided parts).1
  rw [List.contains_eq_any_beq, List.any_append, Bool.or_eq_false_iff, List.any_map]
  constructor
  · refine List.any_eq_false.mpr fun a listed => ?_
    obtain ⟨e, present, _, rfl⟩ := mem_spent.mp listed
    obtain ⟨before', after', split⟩ := List.append_of_mem present
    have parts' : ds ++ verdict.refused = before' ++ e :: (after' ++ d :: after) := by
      rw [parts, split, List.append_assoc, List.cons_append]
    rw [Address.beq_comm plain (course.decided parts').1]
    exact Bool.eq_false_iff.mp (decided e present)
  · refine List.any_eq_false.mpr fun b listed => ?_
    rw [Function.comp_apply, Address.beq_comm plain (hashable b (List.mem_of_mem_take listed))]
    exact Bool.eq_false_iff.mp (new b listed)

omit apart [SoundHost σ D R] in
/-- Where nothing is carried over to an address that comes for the first time, no old value there fits. -/
theorem Placed.none_fits (placed : Placed t.choices) {others : List Address} {c : Choice κ D R}
    (plain : c.address.isHashable = true) (new : ∀ b ∈ t.choices.take (i + 1), (b.address == c.address) = false)
    (unspent : others.contains c.address = false)
    (nothing : Kernel.carried (LawfulHost.densities σ) (some t) others c.address c.dist = .ok none) :
    ∀ b ∈ t.after i, (b.address == c.address) = true → ¬ Fits (LawfulHost.densities σ) c.dist b.value := by
  intro b listed same fits
  have whole : t.choices = t.choices.take (i + 1) ++ t.after i := (List.take_append_drop ..).symm
  rw [carried_eq whole new unspent] at nothing
  cases found : (t.after i).find? (·.address == c.address) with
  | none => exact List.find?_eq_none.mp found b listed same
  | some b' =>
    have there := List.find?_some found
    beta_reduce at there
    have later := placed.after i
    have present := List.mem_of_find?_eq_some found
    have between := Address.beq_trans (later.hashable b listed) plain (later.hashable b' present) same
      (Address.beq_symm (later.hashable b' present) plain there)
    rw [later.same listed present between] at fits
    rw [takenOver_accepted found fits.accepts] at nothing
    cases nothing

/-- After a redrawn choice, every choice obeys the rule or lapses from it. -/
theorem Course.obeys (made : Made True resume entry start t) {c : Choice κ D R} {v : Value} {lp : R}
    {step : Step κ D R} {middle : σ} (site : t.choices[i]? = some c) (reasonable : Reasonable σ c.dist v)
    (goes : resume c.k c.store v middle = .ok step w)
    (course : Course resume limit (some t) (siteTape t i c v lp) step w ds verdict w') :
    ∀ d ∈ ds ++ verdict.refused, Obeys σ t i d ∨ Lapses σ t i d := by
  intro d member
  obtain ⟨before, after, parts⟩ := List.append_of_mem member
  obtain ⟨plain, ⟨_, _, obtains⟩, weighs⟩ := course.decided parts
  have placed := made.placed apart
  obtain ⟨new, decided⟩ := course.elsewhere apart made site reasonable goes parts
  have unspent := course.unspent placed.hashable parts new decided
  cases source : d.source with
  | some j =>
    rw [source] at obtains
    obtain ⟨later, b, place, same, value⟩ := obtains.after_site plain placed.hashable
    obtain ⟨_, _, _, _, _, _, accepted⟩ := obtains.from_place
    rcases fits_of_accepts accepted weighs with fits | listed
    · rw [← value] at fits
      exact .inl (.keeps source later place same value.symm fits)
    · rw [← value] at listed
      exact .inr ⟨j, b, source, later, place, same, value.symm, listed⟩
  | none =>
    rw [source] at obtains
    cases obtains with
    | drawn other drew =>
      rw [siteTape_reused] at other
      exact .inl (.draws source ⟨_, _, drew⟩ (placed.none_fits plain new unspent other))

end

/-- An execution is abandoned for the density of a choice, or for a factor. -/
theorem Course.abandoned_for {old : Option (Trace κ D R)} {tape : Recording κ D R} {step : Step κ D R}
    (course : Course resume limit old tape step w ds verdict w') :
    (∀ d, verdict = .atChoice d → Score.isImpossible d.choice.logDensity = true) ∧
      ∀ x, verdict = .atFactor x → tolerable x = false := by
  induction course with
  | exit | suspend => exact ⟨nofun, nofun⟩
  | refuse bad =>
    refine ⟨nofun, fun x same => ?_⟩
    cases same
    exact bad
  | factor fine running goes rest ih => exact ih
  | choice hashable obtains weighs possible goes rest ih => exact ih
  | abandon hashable obtains weighs impossible =>
    refine ⟨fun d same => ?_, nofun⟩
    cases same
    exact impossible

end Kernel

/-- A choice that keeps a value which fits has mass. -/
theorem Obeys.fresh [BoundedScore R] {d : Decision κ D R} (obeys : Obeys σ t i d)
    (weighs : (LawfulHost.densities σ).logDensity d.choice.dist d.choice.value = .ok d.choice.logDensity)
    (impossible : Score.isImpossible d.choice.logDensity = true) :
    d.source = none ∧ Yields (Host.draw d.choice.dist : EStateM Failure σ Value) d.choice.value := by
  cases obeys with
  | draws fresh drawn others => exact ⟨fresh, drawn⟩
  | keeps kept later place same value fits =>
    obtain ⟨⟨lp, known, finite⟩, _⟩ := fits
    rw [value, known] at weighs
    rw [← Except.ok.inj weighs] at impossible
    have fine := BoundedScore.finite_tolerable finite
    rw [tolerable, impossible] at fine
    cases fine

/-- What a proposal keeps and draws when executions come to no address twice, for any program. The
choices before the site stay, the site is redrawn, and each later choice keeps or draws its value by
the rule or else lapses from it. A proposal is abandoned at a choice only where a drawn value is
impossible, or after a lapse. -/
theorem reuse_rule [SoundHost σ D R] [BoundedScore R] {fuel : Nat} {outcome : Option (Trace κ D R × R)}
    (apart : AddressesApart resume entry start) (made : Made True resume entry start t)
    (returned : regenerate resume fuel t limit w = .ok outcome w') :
    (outcome = none ∧ (t.choices = [] ∨ ∃ i,
        (Host.indexBelow t.choices.length : EStateM Failure σ Nat) w = .ok i w' ∧ t.choices[i]? = none)) ∨
      ∃ i c' ds verdict middle,
        (Host.indexBelow t.choices.length : EStateM Failure σ Nat) w = .ok i middle ∧
        Redraws resume limit t i middle c' ds verdict w' ∧
        (∀ d ∈ ds, Obeys σ t i d ∨ Lapses σ t i d) ∧
        match verdict with
        | .recorded out => (∃ r, outcome = some (out.trace, r)) ∧
            out.trace.choices = t.choices.take i ++ c' :: ds.map (·.choice)
        | .atChoice d => outcome = none ∧ Score.isImpossible d.choice.logDensity = true ∧
            (d.source = none ∧ Yields (Host.draw d.choice.dist : EStateM Failure σ Value) d.choice.value ∨
              Lapses σ t i d)
        | .atFactor x => outcome = none ∧ tolerable x = false := by
  rcases regenerate_redraws returned with nothing | ⟨i, c, c', ds, verdict, middle, picked, site, redraws, rfl⟩
  · exact .inl nothing
  refine .inr ⟨i, c', ds, verdict, middle, picked, redraws, ?_⟩
  cases redraws with
  | refused site' drew weighs impossible =>
    exact ⟨nofun, rfl, impossible, .inl ⟨rfl, ⟨_, _, drew⟩⟩⟩
  | goes site' drew weighs possible goes course =>
    have mass : HasMass σ _ _ := ⟨_, ⟨w, w, logDensity_eq_ok.mpr ⟨weighs, rfl⟩⟩, possible⟩
    have settled := course.obeys apart made site' ⟨.inl ⟨_, _, drew⟩, mass⟩ goes
    obtain ⟨at_choice, at_factor⟩ := course.abandoned_for
    refine ⟨fun d member => settled d (List.mem_append_left _ member), ?_⟩
    cases verdict with
    | recorded out =>
      refine ⟨⟨_, rfl⟩, ?_⟩
      rw [course.recorded_eq.1, siteTape_choices]
    | atFactor x => exact ⟨rfl, at_factor x rfl⟩
    | atChoice d =>
      have impossible := at_choice d rfl
      have last : ds ++ (Verdict.atChoice d).refused = ds ++ d :: [] := rfl
      refine ⟨rfl, impossible, ?_⟩
      rcases settled d (List.mem_append_right _ (List.mem_singleton_self d)) with obeys | lapses
      · exact .inl (obeys.fresh (course.decided last).2.2 impossible)
      · exact .inr lapses

end

namespace ImpossibleFace

open SecondCoin (first second half)

inductive Coin where
  | fair
  | sure (face : Bool)

/-- Every coin lists both faces. -/
noncomputable def laws : Densities Coin Exact where
  enumerable _ := true
  support _ := .ok [.bool false, .bool true]
  logDensity
    | .fair, _ => .ok half
    | .sure face, .bool b => .ok (if b = face then .real 0 else .negInf)
    | .sure _, _ => .ok .negInf

/-- A fair coin, and a second one which shows the same face for sure. -/
def program : PlainProgram Nat Coin Exact where
  entry := 0
  next
    | 0, s, _ => .ok (.sample s 1 first .fair)
    | 1, s, .bool b => .ok (.sample s 2 second (.sure b))
    | _, s, v => .ok (.exit s v)

noncomputable abbrev resume : Resume (EStateM Failure (Careful laws)) Nat Coin Exact := program.resume

theorem samples {k k' : Nat} {s s' : Store} {u : Value} {a : Address} {d : Coin}
    (goes : Yields (resume k s u) (.sample s' k' a d)) :
    k = 0 ∧ k' = 1 ∧ a = first ∨ k = 1 ∧ k' = 2 ∧ a = second := by
  have step := Yields.lift goes
  unfold program at step
  dsimp only at step
  split at step
  · cases step
    exact .inl ⟨rfl, rfl, rfl⟩
  · cases step
    exact .inr ⟨rfl, rfl, rfl⟩
  · cases step

/-- The first coin is tossed before the second one, and nothing after it. -/
theorem reached {chosen : Coin → Value → Prop} {cs : List (Address × Coin × Value)} {xs : List Exact}
    {k : Nat} {s : Store} {u : Value} (reaches : Reaches resume chosen 0 .empty cs xs k s u) :
    (k = 0 → cs = []) ∧ (k = 1 → cs.map (·.1) = [first]) := by
  induction reaches with
  | start => exact ⟨fun _ => rfl, nofun⟩
  | choose before goes choice ih =>
    rcases samples goes with ⟨rfl, rfl, rfl⟩ | ⟨rfl, rfl, rfl⟩
    · obtain ⟨empty, _⟩ := ih
      rw [empty rfl]
      exact ⟨nofun, fun _ => rfl⟩
    · exact ⟨nofun, nofun⟩
  | absorb before goes ih =>
    have step := Yields.lift goes
    unfold program at step
    dsimp only at step
    split at step
    all_goals cases step

theorem apart : AddressesApart resume 0 .empty := by
  rintro cs xs s k a d ⟨k', s', u, reaches, goes⟩ _ c member
  obtain ⟨at_start, after_first⟩ := reached reaches
  rcases samples goes with ⟨rfl, rfl, rfl⟩ | ⟨rfl, rfl, rfl⟩
  · rw [at_start rfl] at member
    cases member
  · have named : c.1 ∈ cs.map (·.1) := List.mem_map_of_mem member
    rw [after_first rfl] at named
    rw [List.mem_singleton.mp named]
    exact SecondCoin.apart

theorem heads_listed : Listed laws .fair (.bool true) := ⟨_, half, rfl, by simp, rfl, rfl⟩

theorem tails_listed : Listed laws .fair (.bool false) := ⟨_, half, rfl, by simp, rfl, rfl⟩

theorem sure_listed : Listed laws (.sure true) (.bool true) := ⟨_, .real 0, rfl, by simp, rfl, rfl⟩

noncomputable def begun : Recording Nat Coin Exact :=
  Recording.record ⟨[], Score.zero, Score.zero, 0, [], Score.zero + half⟩ .empty 1 first .fair (.bool true) half

noncomputable def heads : Recorded Nat Coin Exact :=
  ((begun.draw (.real 0)).record .empty 2 second (.sure true) (.bool true) (.real 0)).finish .empty
    (.done (.bool true))

theorem simulates : simulate resume 3 0 .empty none ⟨[.value (.bool true), .value (.bool true)]⟩ =
    .ok (some heads.trace) ⟨[]⟩ := by
  refine bind_eq_ok.mpr ⟨.sample .empty 1 first .fair, _, rfl, ?_⟩
  refine bind_eq_ok.mpr ⟨some heads, ⟨[]⟩, ?_, rfl⟩
  refine bind_eq_ok.mpr ⟨_, _, Careful.samples (SecondCoin.hashable (.inl rfl)) rfl heads_listed rfl rfl, ?_⟩
  refine bind_eq_ok.mpr ⟨.sample .empty 2 second (.sure true), _, rfl, ?_⟩
  refine bind_eq_ok.mpr ⟨_, _, Careful.samples (SecondCoin.hashable (.inr rfl)) rfl sure_listed rfl rfl, ?_⟩
  exact bind_eq_ok.mpr ⟨.exit .empty (.bool true), _, rfl, rfl⟩

theorem made : Made True resume 0 .empty heads.trace := .simulate ⟨_, _, simulates⟩

noncomputable def site : Choice Nat Coin Exact :=
  ⟨first, .fair, .bool true, half, 1, .empty, Score.zero, Score.zero, 0⟩

/-- The first coin redrawn to tails. -/
noncomputable def redrawn : Recording Nat Coin Exact := siteTape heads.trace 0 site (.bool false) half

/-- Heads are kept of the second coin, though it shows tails for sure. -/
noncomputable def kept : Decision Nat Coin Exact :=
  ⟨redrawn.entry .empty 2 second (.sure false) (.bool true) .negInf, some 1⟩

theorem found : heads.trace.choiceAt? second =
    some ⟨second, .sure true, .bool true, .real 0, 2, .empty, Score.zero + half, Score.zero + half, 0⟩ := by
  rw [Trace.choiceAt?]
  refine (List.find?_cons_of_neg ?_).trans (List.find?_cons_of_pos SecondCoin.second_itself)
  exact Bool.eq_false_iff.mp SecondCoin.apart

theorem unspent : redrawn.reused.contains second = false := by
  change [first].contains second = false
  simp [SecondCoin.second_apart]

theorem accepted : laws.accepts (.sure false) (.bool true) = .ok true :=
  congrArg Except.ok (bools_contain true)

theorem redrawing : Redraws resume none heads.trace 0 ⟨[.value (.bool false)]⟩ (site.redrawn (.bool false) half) []
    (.atChoice kept) ⟨[]⟩ := by
  refine .goes rfl (Careful.draw_eq_ok.mpr ⟨rfl, tails_listed⟩) rfl rfl rfl ?_
  exact .abandon (SecondCoin.hashable (.inr rfl)) (.kept rfl found rfl unspent accepted) rfl rfl

theorem regenerates : regenerate resume 3 heads.trace none ⟨[.index 0, .value (.bool false)]⟩ =
    .ok none ⟨[]⟩ := by
  have carries : carried laws (some heads.trace) redrawn.reused second (.sure false) =
      .ok (some (.bool true)) := by
    rw [carried, Option.bind_some, found]
    dsimp only
    rw [unspent, accepted]
    rfl
  refine bind_eq_ok.mpr ⟨0, ⟨[.value (.bool false)]⟩, rfl, ?_⟩
  refine bind_eq_ok.mpr ⟨.bool false, ⟨[]⟩, Careful.draw_eq_ok.mpr ⟨rfl, tails_listed⟩, ?_⟩
  refine bind_eq_ok.mpr ⟨half, _, rfl, ?_⟩
  refine bind_eq_ok.mpr ⟨.sample .empty 2 second (.sure false), _, rfl, ?_⟩
  refine bind_eq_ok.mpr ⟨none, ⟨[]⟩, bind_eq_ok.mpr ⟨.finish none, ⟨[]⟩, ?_, rfl⟩, rfl⟩
  have weighs : laws.logDensity (.sure false) (.bool true) = .ok .negInf := rfl
  have plain := SecondCoin.hashable (.inr rfl : second = first ∨ second = second)
  exact samples_kept (σ := Careful laws) plain carries weighs

end ImpossibleFace

open ImpossibleFace in
/-- Two coins, of which the second cannot show what the first does not. When the first is redrawn, the
proposal is abandoned at a choice after a lapse, or for what is drawn there. -/
theorem coins_obey_or_lapse :
    ∃ i c' ds verdict middle, Redraws resume none heads.trace i middle c' ds verdict ⟨[]⟩ ∧
      (∀ d ∈ ds, Obeys (Careful laws) heads.trace i d ∨ Lapses (Careful laws) heads.trace i d) ∧
      verdict.outcome = none ∧ ∀ d, verdict = .atChoice d →
        d.source = none ∧ Yields (Host.draw d.choice.dist : EStateM Failure (Careful laws) Value)
          d.choice.value ∨ Lapses (Careful laws) heads.trace i d := by
  rcases reuse_rule apart made regenerates with ⟨_, none_there | ⟨i, picked, beyond⟩⟩ |
    ⟨i, c', ds, verdict, middle, _, redraws, settled, ended⟩
  · cases none_there
  · have first_site : EStateM.Result.ok 0 _ = EStateM.Result.ok i _ := picked
    cases first_site
  · refine ⟨i, c', ds, verdict, middle, redraws, settled, ?_⟩
    cases verdict with
    | recorded out =>
      obtain ⟨⟨r, same⟩, _⟩ := ended
      cases same
    | atFactor x => exact ⟨rfl, nofun⟩
    | atChoice d =>
      obtain ⟨_, _, why⟩ := ended
      refine ⟨rfl, fun e same => ?_⟩
      cases same
      exact why

open ImpossibleFace in
/-- A proposal abandoned at a choice that keeps an old value of no mass, and draws none. -/
theorem impossible_face_kept :
    AddressesApart resume 0 .empty ∧ Made True resume 0 .empty heads.trace ∧
      (∃ w, regenerate resume 3 heads.trace none w = .ok none ⟨[]⟩) ∧
      Redraws resume none heads.trace 0 ⟨[.value (.bool false)]⟩ (site.redrawn (.bool false) SecondCoin.half) []
        (.atChoice kept) ⟨[]⟩ ∧
      kept.source = some 1 ∧ ¬ Fits laws kept.choice.dist kept.choice.value := by
  refine ⟨apart, made, ⟨_, regenerates⟩, redrawing, rfl, ?_⟩
  rintro ⟨⟨lp, weighs, finite⟩, _⟩
  cases weighs
  cases finite

end ProbCore
